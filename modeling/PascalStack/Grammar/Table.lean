import PascalStack.Grammar.Parser

/-!
# The automaton of the grammar

The LALR(1) automaton of `Grammar.rules`, one row a state.  It has no conflicts: in no state do two
moves compete for a lookahead.

* `Grammar.automaton`   the automaton;
* `Grammar.parse`       the parser of the language.
-/

namespace PascalStack.Grammar

def rowsFrom0 : List Row :=
  [⟨[(.keyword .program, 2)],
    [],
    [(.program, 3), (.programHeading, 1)], none⟩,
   ⟨[(.punct .semicolon, 4)],
    [],
    [], none⟩,
   ⟨[(.identifier, 6)],
    [],
    [(.identifier, 5)], none⟩,
   ⟨[],
    [],
    [], none⟩,
   ⟨[(.keyword .function, 13)],
    [(7, 0x6)],
    [(.block, 7), (.functionPart, 8), (.functionList, 9), (.functionDecl, 10), (.heading, 11),
     (.functionName, 12)], none⟩,
   ⟨[(.punct .leftParen, 14)],
    [(1, 0x800000000)],
    [], none⟩,
   ⟨[],
    [(3, 0x7ffffe009e6b08)],
    [], none⟩,
   ⟨[(.punct .dot, 15)],
    [],
    [], none⟩,
   ⟨[(.keyword .var, 17)],
    [(24, 0x4)],
    [(.variablePart, 16)], none⟩,
   ⟨[(.punct .semicolon, 18)],
    [],
    [], none⟩,
   ⟨[],
    [(9, 0x800000000)],
    [], none⟩,
   ⟨[(.punct .semicolon, 19)],
    [],
    [], none⟩,
   ⟨[(.punct .semicolon, 20)],
    [],
    [], none⟩,
   ⟨[(.identifier, 6)],
    [],
    [(.identifier, 21)], none⟩,
   ⟨[(.identifier, 6)],
    [],
    [(.identifier, 23), (.identifierList, 22)], none⟩,
   ⟨[],
    [(0, 0x80000000000000)],
    [], none⟩,
   ⟨[(.keyword .begin, 25)],
    [],
    [(.compound, 24)], none⟩,
   ⟨[(.identifier, 6)],
    [],
    [(.identifier, 23), (.identifierList, 26), (.variableList, 27), (.varDecl, 28)], none⟩,
   ⟨[(.keyword .function, 13)],
    [(8, 0x6)],
    [(.functionDecl, 29), (.heading, 11), (.functionName, 12)], none⟩,
   ⟨[(.keyword .function, 13), (.keyword .forward, 32), (.keyword .external, 33)],
    [(7, 0x6)],
    [(.block, 31), (.functionPart, 8), (.functionList, 9), (.functionDecl, 10), (.directive, 30),
     (.heading, 11), (.functionName, 12)], none⟩]

def rowsFrom20 : List Row :=
  [⟨[(.keyword .function, 13)],
    [(7, 0x6)],
    [(.block, 34), (.functionPart, 8), (.functionList, 9), (.functionDecl, 10), (.heading, 11),
     (.functionName, 12)], none⟩,
   ⟨[(.punct .colon, 35), (.punct .leftParen, 36)],
    [(18, 0x800000000)],
    [], none⟩,
   ⟨[(.punct .comma, 38), (.punct .rightParen, 37)],
    [],
    [], none⟩,
   ⟨[],
    [(4, 0x10002400000000)],
    [], none⟩,
   ⟨[],
    [(6, 0x1800000000)],
    [], none⟩,
   ⟨[(.keyword .begin, 25), (.keyword .if, 45), (.keyword .while, 46), (.keyword .for, 51),
     (.identifier, 6)],
    [(53, 0x800000008)],
    [(.identifier, 53), (.compound, 49), (.sequence, 39), (.item, 40), (.statement, 41),
     (.openStatement, 43), (.closedStatement, 44), (.forHead, 47), (.assignment, 48),
     (.procedureCall, 50), (.access, 52)], some 42⟩,
   ⟨[(.punct .colon, 54), (.punct .comma, 38)],
    [],
    [], none⟩,
   ⟨[(.punct .semicolon, 55)],
    [],
    [], none⟩,
   ⟨[],
    [(26, 0x800000000)],
    [], none⟩,
   ⟨[],
    [(10, 0x800000000)],
    [], none⟩,
   ⟨[],
    [(11, 0x800000000)],
    [], none⟩,
   ⟨[],
    [(13, 0x800000000)],
    [], none⟩,
   ⟨[],
    [(14, 0x800000000)],
    [], none⟩,
   ⟨[],
    [(15, 0x800000000)],
    [], none⟩,
   ⟨[],
    [(12, 0x800000000)],
    [], none⟩,
   ⟨[(.keyword .array, 63), (.keyword .real, 57), (.keyword .integer, 58),
     (.keyword .boolean, 59), (.keyword .string, 60), (.keyword .char, 61)],
    [],
    [(.typeDenoter, 56), (.arrayType, 62)], none⟩,
   ⟨[(.keyword .var, 68), (.keyword .function, 65), (.identifier, 6)],
    [],
    [(.identifier, 23), (.identifierList, 64), (.heading, 69), (.parameterSections, 66),
     (.parameterSection, 67)], none⟩,
   ⟨[],
    [(2, 0x800000000)],
    [], none⟩,
   ⟨[(.identifier, 6)],
    [],
    [(.identifier, 70)], none⟩,
   ⟨[(.keyword .end, 71), (.punct .semicolon, 72)],
    [],
    [], none⟩]

def rowsFrom40 : List Row :=
  [⟨[],
    [(37, 0x800000008)],
    [], none⟩,
   ⟨[],
    [(39, 0x800000008)],
    [], none⟩,
   ⟨[],
    [(40, 0x800000008)],
    [], none⟩,
   ⟨[],
    [(41, 0x800000008)],
    [], none⟩,
   ⟨[],
    [(42, 0x800000008)],
    [], none⟩,
   ⟨[(.keyword .not, 86), (.keyword .nil, 90), (.identifier, 6), (.integer, 87), (.real, 88),
     (.string, 89), (.punct .plus, 92), (.punct .minus, 93), (.punct .leftParen, 85),
     (.punct .leftBracket, 91)],
    [],
    [(.identifier, 74), (.access, 75), (.expr, 73), (.simpleExpr, 76), (.term, 77), (.factor, 78),
     (.power, 80), (.primary, 81), (.constant, 82), (.functionCall, 83), (.setConstructor, 84),
     (.sign, 79)], none⟩,
   ⟨[(.keyword .not, 86), (.keyword .nil, 90), (.identifier, 6), (.integer, 87), (.real, 88),
     (.string, 89), (.punct .plus, 92), (.punct .minus, 93), (.punct .leftParen, 85),
     (.punct .leftBracket, 91)],
    [],
    [(.identifier, 74), (.access, 75), (.expr, 94), (.simpleExpr, 76), (.term, 77), (.factor, 78),
     (.power, 80), (.primary, 81), (.constant, 82), (.functionCall, 83), (.setConstructor, 84),
     (.sign, 79)], none⟩,
   ⟨[(.keyword .begin, 25), (.keyword .if, 45), (.keyword .while, 46), (.keyword .for, 51),
     (.identifier, 6)],
    [(53, 0x800000208)],
    [(.identifier, 53), (.compound, 49), (.openStatement, 95), (.closedStatement, 96),
     (.forHead, 47), (.assignment, 48), (.procedureCall, 50), (.access, 52)], none⟩,
   ⟨[],
    [(47, 0x800000208)],
    [], none⟩,
   ⟨[],
    [(48, 0x800000208)],
    [], none⟩,
   ⟨[],
    [(52, 0x800000208)],
    [], none⟩,
   ⟨[(.identifier, 6)],
    [],
    [(.identifier, 97)], none⟩,
   ⟨[(.punct .assign, 98), (.punct .dot, 100), (.punct .upArrow, 101), (.punct .leftBracket, 99)],
    [],
    [], none⟩,
   ⟨[(.punct .leftParen, 103)],
    [(59, 0x800000208), (60, 0x20101200000000)],
    [(.parameters, 102)], none⟩,
   ⟨[(.keyword .array, 63), (.keyword .real, 57), (.keyword .integer, 58),
     (.keyword .boolean, 59), (.keyword .string, 60), (.keyword .char, 61)],
    [],
    [(.typeDenoter, 104), (.arrayType, 62)], none⟩,
   ⟨[(.identifier, 6)],
    [(25, 0x4)],
    [(.identifier, 23), (.identifierList, 26), (.varDecl, 105)], none⟩,
   ⟨[],
    [(16, 0x10000800000000)],
    [], none⟩,
   ⟨[],
    [(29, 0x10000800000000)],
    [], none⟩,
   ⟨[],
    [(30, 0x10000800000000)],
    [], none⟩,
   ⟨[],
    [(31, 0x10000800000000)],
    [], none⟩]

def rowsFrom60 : List Row :=
  [⟨[],
    [(32, 0x10000800000000)],
    [], none⟩,
   ⟨[],
    [(33, 0x10000800000000)],
    [], none⟩,
   ⟨[],
    [(34, 0x10000800000000)],
    [], none⟩,
   ⟨[(.punct .leftBracket, 106)],
    [],
    [], none⟩,
   ⟨[(.punct .colon, 107), (.punct .comma, 38)],
    [],
    [], none⟩,
   ⟨[(.identifier, 6)],
    [],
    [(.identifier, 108)], none⟩,
   ⟨[(.punct .semicolon, 110), (.punct .rightParen, 109)],
    [],
    [], none⟩,
   ⟨[],
    [(19, 0x10000800000000)],
    [], none⟩,
   ⟨[(.identifier, 6)],
    [],
    [(.identifier, 23), (.identifierList, 111)], none⟩,
   ⟨[],
    [(23, 0x10000800000000)],
    [], none⟩,
   ⟨[],
    [(5, 0x10002400000000)],
    [], none⟩,
   ⟨[],
    [(36, 0x1800000208)],
    [], none⟩,
   ⟨[(.keyword .begin, 25), (.keyword .if, 45), (.keyword .while, 46), (.keyword .for, 51),
     (.identifier, 6)],
    [(53, 0x800000008)],
    [(.identifier, 53), (.compound, 49), (.item, 112), (.statement, 41), (.openStatement, 43),
     (.closedStatement, 44), (.forHead, 47), (.assignment, 48), (.procedureCall, 50),
     (.access, 52)], some 42⟩,
   ⟨[(.keyword .then, 113)],
    [],
    [], none⟩,
   ⟨[(.punct .leftParen, 103)],
    [(60, 0x77fffc009e6b08)],
    [(.parameters, 114)], none⟩,
   ⟨[(.punct .dot, 100), (.punct .upArrow, 101), (.punct .leftBracket, 99)],
    [(82, 0x57efec009e6b08)],
    [], none⟩,
   ⟨[(.keyword .or, 126), (.keyword .in, 123), (.punct .plus, 124), (.punct .minus, 125),
     (.punct .equal, 117), (.punct .notEqual, 118), (.punct .less, 119), (.punct .greater, 120),
     (.punct .lessEqual, 121), (.punct .greaterEqual, 122)],
    [(72, 0x50006c00006b08)],
    [(.relationalOp, 115), (.addingOp, 116)], none⟩,
   ⟨[(.keyword .div, 130), (.keyword .mod, 131), (.keyword .and, 132), (.punct .star, 128),
     (.punct .slash, 129)],
    [(74, 0x57e1ec00906b08)],
    [(.multiplyingOp, 127)], none⟩,
   ⟨[],
    [(76, 0x57e7ec009e6b08)],
    [], none⟩,
   ⟨[(.keyword .not, 86), (.keyword .nil, 90), (.identifier, 6), (.integer, 87), (.real, 88),
     (.string, 89), (.punct .plus, 92), (.punct .minus, 93), (.punct .leftParen, 85),
     (.punct .leftBracket, 91)],
    [],
    [(.identifier, 74), (.access, 75), (.factor, 133), (.power, 80), (.primary, 81),
     (.constant, 82), (.functionCall, 83), (.setConstructor, 84), (.sign, 79)], none⟩]

def rowsFrom80 : List Row :=
  [⟨[],
    [(79, 0x57e7ec009e6b08)],
    [], none⟩,
   ⟨[(.punct .starStar, 134)],
    [(80, 0x57e7ec009e6b08)],
    [], none⟩,
   ⟨[],
    [(83, 0x57efec009e6b08)],
    [], none⟩,
   ⟨[],
    [(84, 0x57efec009e6b08)],
    [], none⟩,
   ⟨[],
    [(85, 0x57efec009e6b08)],
    [], none⟩,
   ⟨[(.keyword .not, 86), (.keyword .nil, 90), (.identifier, 6), (.integer, 87), (.real, 88),
     (.string, 89), (.punct .plus, 92), (.punct .minus, 93), (.punct .leftParen, 85),
     (.punct .leftBracket, 91)],
    [],
    [(.identifier, 74), (.access, 75), (.expr, 135), (.simpleExpr, 76), (.term, 77),
     (.factor, 78), (.power, 80), (.primary, 81), (.constant, 82), (.functionCall, 83),
     (.setConstructor, 84), (.sign, 79)], none⟩,
   ⟨[(.keyword .not, 86), (.keyword .nil, 90), (.identifier, 6), (.integer, 87), (.real, 88),
     (.string, 89), (.punct .leftParen, 85), (.punct .leftBracket, 91)],
    [],
    [(.identifier, 74), (.access, 75), (.primary, 136), (.constant, 82), (.functionCall, 83),
     (.setConstructor, 84)], none⟩,
   ⟨[],
    [(88, 0x57efec009e6b08)],
    [], none⟩,
   ⟨[],
    [(89, 0x57efec009e6b08)],
    [], none⟩,
   ⟨[],
    [(90, 0x57efec009e6b08)],
    [], none⟩,
   ⟨[],
    [(91, 0x57efec009e6b08)],
    [], none⟩,
   ⟨[(.keyword .not, 86), (.keyword .nil, 90), (.identifier, 6), (.integer, 87), (.real, 88),
     (.string, 89), (.punct .plus, 92), (.punct .minus, 93), (.punct .leftParen, 85),
     (.punct .leftBracket, 91), (.punct .rightBracket, 137)],
    [],
    [(.identifier, 74), (.access, 75), (.expr, 140), (.simpleExpr, 76), (.term, 77),
     (.factor, 78), (.power, 80), (.primary, 81), (.constant, 82), (.functionCall, 83),
     (.setConstructor, 84), (.memberList, 138), (.member, 139), (.sign, 79)], none⟩,
   ⟨[],
    [(99, 0x280181e0600000)],
    [], none⟩,
   ⟨[],
    [(100, 0x280181e0600000)],
    [], none⟩,
   ⟨[(.keyword .do, 141)],
    [],
    [], none⟩,
   ⟨[],
    [(46, 0x800000008)],
    [], none⟩,
   ⟨[],
    [(51, 0x800000208)],
    [], none⟩,
   ⟨[(.punct .assign, 142)],
    [],
    [], none⟩,
   ⟨[(.keyword .not, 86), (.keyword .nil, 90), (.identifier, 6), (.integer, 87), (.real, 88),
     (.string, 89), (.punct .plus, 92), (.punct .minus, 93), (.punct .leftParen, 85),
     (.punct .leftBracket, 91)],
    [],
    [(.identifier, 74), (.access, 75), (.expr, 143), (.simpleExpr, 76), (.term, 77),
     (.factor, 78), (.power, 80), (.primary, 81), (.constant, 82), (.functionCall, 83),
     (.setConstructor, 84), (.sign, 79)], none⟩,
   ⟨[(.keyword .not, 86), (.keyword .nil, 90), (.identifier, 6), (.integer, 87), (.real, 88),
     (.string, 89), (.punct .plus, 92), (.punct .minus, 93), (.punct .leftParen, 85),
     (.punct .leftBracket, 91)],
    [],
    [(.identifier, 74), (.access, 75), (.exprList, 144), (.expr, 145), (.simpleExpr, 76),
     (.term, 77), (.factor, 78), (.power, 80), (.primary, 81), (.constant, 82),
     (.functionCall, 83), (.setConstructor, 84), (.sign, 79)], none⟩]

def rowsFrom100 : List Row :=
  [⟨[(.identifier, 6)],
    [],
    [(.identifier, 146)], none⟩,
   ⟨[],
    [(63, 0x77fffe009e6b08)],
    [], none⟩,
   ⟨[],
    [(58, 0x800000208)],
    [], none⟩,
   ⟨[(.keyword .not, 86), (.keyword .nil, 90), (.identifier, 6), (.integer, 87), (.real, 88),
     (.string, 89), (.punct .plus, 92), (.punct .minus, 93), (.punct .leftParen, 85),
     (.punct .leftBracket, 91)],
    [],
    [(.identifier, 74), (.access, 75), (.argumentList, 147), (.argument, 148), (.expr, 149),
     (.simpleExpr, 76), (.term, 77), (.factor, 78), (.power, 80), (.primary, 81), (.constant, 82),
     (.functionCall, 83), (.setConstructor, 84), (.sign, 79)], none⟩,
   ⟨[],
    [(28, 0x800000000)],
    [], none⟩,
   ⟨[],
    [(27, 0x800000000)],
    [], none⟩,
   ⟨[(.keyword .not, 86), (.keyword .nil, 90), (.identifier, 6), (.integer, 87), (.real, 88),
     (.string, 89), (.punct .plus, 92), (.punct .minus, 93), (.punct .leftParen, 85),
     (.punct .leftBracket, 91)],
    [],
    [(.identifier, 74), (.access, 75), (.simpleExpr, 150), (.term, 77), (.factor, 78),
     (.power, 80), (.primary, 81), (.constant, 82), (.functionCall, 83), (.setConstructor, 84),
     (.sign, 79)], none⟩,
   ⟨[(.keyword .array, 63), (.keyword .real, 57), (.keyword .integer, 58),
     (.keyword .boolean, 59), (.keyword .string, 60), (.keyword .char, 61)],
    [],
    [(.typeDenoter, 151), (.arrayType, 62)], none⟩,
   ⟨[(.punct .colon, 35), (.punct .leftParen, 36)],
    [],
    [], none⟩,
   ⟨[(.punct .colon, 152)],
    [],
    [], none⟩,
   ⟨[(.keyword .var, 68), (.keyword .function, 65), (.identifier, 6)],
    [],
    [(.identifier, 23), (.identifierList, 64), (.heading, 69), (.parameterSection, 153)], none⟩,
   ⟨[(.punct .colon, 154), (.punct .comma, 38)],
    [],
    [], none⟩,
   ⟨[],
    [(38, 0x800000008)],
    [], none⟩,
   ⟨[(.keyword .begin, 25), (.keyword .if, 45), (.keyword .while, 46), (.keyword .for, 51),
     (.identifier, 6)],
    [(53, 0x800000208)],
    [(.identifier, 53), (.compound, 49), (.statement, 156), (.openStatement, 43),
     (.closedStatement, 155), (.forHead, 47), (.assignment, 48), (.procedureCall, 50),
     (.access, 52)], none⟩,
   ⟨[],
    [(92, 0x57efec009e6b08)],
    [], none⟩,
   ⟨[(.keyword .not, 86), (.keyword .nil, 90), (.identifier, 6), (.integer, 87), (.real, 88),
     (.string, 89), (.punct .plus, 92), (.punct .minus, 93), (.punct .leftParen, 85),
     (.punct .leftBracket, 91)],
    [],
    [(.identifier, 74), (.access, 75), (.simpleExpr, 157), (.term, 77), (.factor, 78),
     (.power, 80), (.primary, 81), (.constant, 82), (.functionCall, 83), (.setConstructor, 84),
     (.sign, 79)], none⟩,
   ⟨[(.keyword .not, 86), (.keyword .nil, 90), (.identifier, 6), (.integer, 87), (.real, 88),
     (.string, 89), (.punct .plus, 92), (.punct .minus, 93), (.punct .leftParen, 85),
     (.punct .leftBracket, 91)],
    [],
    [(.identifier, 74), (.access, 75), (.term, 158), (.factor, 78), (.power, 80), (.primary, 81),
     (.constant, 82), (.functionCall, 83), (.setConstructor, 84), (.sign, 79)], none⟩,
   ⟨[],
    [(101, 0x280181e0600000)],
    [], none⟩,
   ⟨[],
    [(102, 0x280181e0600000)],
    [], none⟩,
   ⟨[],
    [(103, 0x280181e0600000)],
    [], none⟩]

def rowsFrom120 : List Row :=
  [⟨[],
    [(104, 0x280181e0600000)],
    [], none⟩,
   ⟨[],
    [(105, 0x280181e0600000)],
    [], none⟩,
   ⟨[],
    [(106, 0x280181e0600000)],
    [], none⟩,
   ⟨[],
    [(107, 0x280181e0600000)],
    [], none⟩,
   ⟨[],
    [(108, 0x280181e0600000)],
    [], none⟩,
   ⟨[],
    [(109, 0x280181e0600000)],
    [], none⟩,
   ⟨[],
    [(110, 0x280181e0600000)],
    [], none⟩,
   ⟨[(.keyword .not, 86), (.keyword .nil, 90), (.identifier, 6), (.integer, 87), (.real, 88),
     (.string, 89), (.punct .plus, 92), (.punct .minus, 93), (.punct .leftParen, 85),
     (.punct .leftBracket, 91)],
    [],
    [(.identifier, 74), (.access, 75), (.factor, 159), (.power, 80), (.primary, 81),
     (.constant, 82), (.functionCall, 83), (.setConstructor, 84), (.sign, 79)], none⟩,
   ⟨[],
    [(111, 0x280181e0600000)],
    [], none⟩,
   ⟨[],
    [(112, 0x280181e0600000)],
    [], none⟩,
   ⟨[],
    [(113, 0x280181e0600000)],
    [], none⟩,
   ⟨[],
    [(114, 0x280181e0600000)],
    [], none⟩,
   ⟨[],
    [(115, 0x280181e0600000)],
    [], none⟩,
   ⟨[],
    [(78, 0x57e7ec009e6b08)],
    [], none⟩,
   ⟨[(.keyword .not, 86), (.keyword .nil, 90), (.identifier, 6), (.integer, 87), (.real, 88),
     (.string, 89), (.punct .leftParen, 85), (.punct .leftBracket, 91)],
    [],
    [(.identifier, 74), (.access, 75), (.power, 160), (.primary, 81), (.constant, 82),
     (.functionCall, 83), (.setConstructor, 84)], none⟩,
   ⟨[(.punct .rightParen, 161)],
    [],
    [], none⟩,
   ⟨[],
    [(87, 0x57efec009e6b08)],
    [], none⟩,
   ⟨[],
    [(93, 0x57efec009e6b08)],
    [], none⟩,
   ⟨[(.punct .comma, 163), (.punct .rightBracket, 162)],
    [],
    [], none⟩,
   ⟨[],
    [(95, 0x40002000000000)],
    [], none⟩]

def rowsFrom140 : List Row :=
  [⟨[(.punct .dotDot, 164)],
    [(97, 0x40002000000000)],
    [], none⟩,
   ⟨[(.keyword .begin, 25), (.keyword .if, 45), (.keyword .while, 46), (.keyword .for, 51),
     (.identifier, 6)],
    [(53, 0x800000208)],
    [(.identifier, 53), (.compound, 49), (.openStatement, 165), (.closedStatement, 166),
     (.forHead, 47), (.assignment, 48), (.procedureCall, 50), (.access, 52)], none⟩,
   ⟨[(.keyword .not, 86), (.keyword .nil, 90), (.identifier, 6), (.integer, 87), (.real, 88),
     (.string, 89), (.punct .plus, 92), (.punct .minus, 93), (.punct .leftParen, 85),
     (.punct .leftBracket, 91)],
    [],
    [(.identifier, 74), (.access, 75), (.expr, 167), (.simpleExpr, 76), (.term, 77),
     (.factor, 78), (.power, 80), (.primary, 81), (.constant, 82), (.functionCall, 83),
     (.setConstructor, 84), (.sign, 79)], none⟩,
   ⟨[],
    [(57, 0x800000208)],
    [], none⟩,
   ⟨[(.punct .comma, 169), (.punct .rightBracket, 168)],
    [],
    [], none⟩,
   ⟨[],
    [(64, 0x40002000000000)],
    [], none⟩,
   ⟨[],
    [(62, 0x77fffe009e6b08)],
    [], none⟩,
   ⟨[(.punct .comma, 171), (.punct .rightParen, 170)],
    [],
    [], none⟩,
   ⟨[],
    [(67, 0x10002000000000)],
    [], none⟩,
   ⟨[(.punct .colon, 172)],
    [(69, 0x10002000000000)],
    [], none⟩,
   ⟨[(.keyword .or, 126), (.punct .dotDot, 173), (.punct .plus, 124), (.punct .minus, 125)],
    [],
    [(.addingOp, 116)], none⟩,
   ⟨[],
    [(21, 0x10000800000000)],
    [], none⟩,
   ⟨[(.keyword .array, 63), (.keyword .real, 57), (.keyword .integer, 58),
     (.keyword .boolean, 59), (.keyword .string, 60), (.keyword .char, 61)],
    [],
    [(.typeDenoter, 174), (.arrayType, 62)], none⟩,
   ⟨[],
    [(20, 0x10000800000000)],
    [], none⟩,
   ⟨[(.keyword .array, 63), (.keyword .real, 57), (.keyword .integer, 58),
     (.keyword .boolean, 59), (.keyword .string, 60), (.keyword .char, 61)],
    [],
    [(.typeDenoter, 175), (.arrayType, 62)], none⟩,
   ⟨[(.keyword .else, 176)],
    [(42, 0x800000008)],
    [], none⟩,
   ⟨[],
    [(43, 0x800000008)],
    [], none⟩,
   ⟨[(.keyword .or, 126), (.punct .plus, 124), (.punct .minus, 125)],
    [(73, 0x50006c00006b08)],
    [(.addingOp, 116)], none⟩,
   ⟨[(.keyword .div, 130), (.keyword .mod, 131), (.keyword .and, 132), (.punct .star, 128),
     (.punct .slash, 129)],
    [(75, 0x57e1ec00906b08)],
    [(.multiplyingOp, 127)], none⟩,
   ⟨[],
    [(77, 0x57e7ec009e6b08)],
    [], none⟩]

def rowsFrom160 : List Row :=
  [⟨[],
    [(81, 0x57e7ec009e6b08)],
    [], none⟩,
   ⟨[],
    [(86, 0x57efec009e6b08)],
    [], none⟩,
   ⟨[],
    [(94, 0x57efec009e6b08)],
    [], none⟩,
   ⟨[(.keyword .not, 86), (.keyword .nil, 90), (.identifier, 6), (.integer, 87), (.real, 88),
     (.string, 89), (.punct .plus, 92), (.punct .minus, 93), (.punct .leftParen, 85),
     (.punct .leftBracket, 91)],
    [],
    [(.identifier, 74), (.access, 75), (.expr, 140), (.simpleExpr, 76), (.term, 77),
     (.factor, 78), (.power, 80), (.primary, 81), (.constant, 82), (.functionCall, 83),
     (.setConstructor, 84), (.member, 177), (.sign, 79)], none⟩,
   ⟨[(.keyword .not, 86), (.keyword .nil, 90), (.identifier, 6), (.integer, 87), (.real, 88),
     (.string, 89), (.punct .plus, 92), (.punct .minus, 93), (.punct .leftParen, 85),
     (.punct .leftBracket, 91)],
    [],
    [(.identifier, 74), (.access, 75), (.expr, 178), (.simpleExpr, 76), (.term, 77),
     (.factor, 78), (.power, 80), (.primary, 81), (.constant, 82), (.functionCall, 83),
     (.setConstructor, 84), (.sign, 79)], none⟩,
   ⟨[],
    [(45, 0x800000008)],
    [], none⟩,
   ⟨[],
    [(50, 0x800000208)],
    [], none⟩,
   ⟨[(.keyword .to, 180), (.keyword .downto, 181)],
    [],
    [(.direction, 179)], none⟩,
   ⟨[],
    [(61, 0x77fffe009e6b08)],
    [], none⟩,
   ⟨[(.keyword .not, 86), (.keyword .nil, 90), (.identifier, 6), (.integer, 87), (.real, 88),
     (.string, 89), (.punct .plus, 92), (.punct .minus, 93), (.punct .leftParen, 85),
     (.punct .leftBracket, 91)],
    [],
    [(.identifier, 74), (.access, 75), (.expr, 182), (.simpleExpr, 76), (.term, 77),
     (.factor, 78), (.power, 80), (.primary, 81), (.constant, 82), (.functionCall, 83),
     (.setConstructor, 84), (.sign, 79)], none⟩,
   ⟨[],
    [(66, 0x57efec009e6b08)],
    [], none⟩,
   ⟨[(.keyword .not, 86), (.keyword .nil, 90), (.identifier, 6), (.integer, 87), (.real, 88),
     (.string, 89), (.punct .plus, 92), (.punct .minus, 93), (.punct .leftParen, 85),
     (.punct .leftBracket, 91)],
    [],
    [(.identifier, 74), (.access, 75), (.argument, 183), (.expr, 149), (.simpleExpr, 76),
     (.term, 77), (.factor, 78), (.power, 80), (.primary, 81), (.constant, 82),
     (.functionCall, 83), (.setConstructor, 84), (.sign, 79)], none⟩,
   ⟨[(.keyword .not, 86), (.keyword .nil, 90), (.identifier, 6), (.integer, 87), (.real, 88),
     (.string, 89), (.punct .plus, 92), (.punct .minus, 93), (.punct .leftParen, 85),
     (.punct .leftBracket, 91)],
    [],
    [(.identifier, 74), (.access, 75), (.expr, 184), (.simpleExpr, 76), (.term, 77),
     (.factor, 78), (.power, 80), (.primary, 81), (.constant, 82), (.functionCall, 83),
     (.setConstructor, 84), (.sign, 79)], none⟩,
   ⟨[(.keyword .not, 86), (.keyword .nil, 90), (.identifier, 6), (.integer, 87), (.real, 88),
     (.string, 89), (.punct .plus, 92), (.punct .minus, 93), (.punct .leftParen, 85),
     (.punct .leftBracket, 91)],
    [],
    [(.identifier, 74), (.access, 75), (.simpleExpr, 185), (.term, 77), (.factor, 78),
     (.power, 80), (.primary, 81), (.constant, 82), (.functionCall, 83), (.setConstructor, 84),
     (.sign, 79)], none⟩,
   ⟨[],
    [(17, 0x10000800000000)],
    [], none⟩,
   ⟨[],
    [(22, 0x10000800000000)],
    [], none⟩,
   ⟨[(.keyword .begin, 25), (.keyword .if, 45), (.keyword .while, 46), (.keyword .for, 51),
     (.identifier, 6)],
    [(53, 0x800000208)],
    [(.identifier, 53), (.compound, 49), (.openStatement, 186), (.closedStatement, 187),
     (.forHead, 47), (.assignment, 48), (.procedureCall, 50), (.access, 52)], none⟩,
   ⟨[],
    [(96, 0x40002000000000)],
    [], none⟩,
   ⟨[],
    [(98, 0x40002000000000)],
    [], none⟩,
   ⟨[(.keyword .not, 86), (.keyword .nil, 90), (.identifier, 6), (.integer, 87), (.real, 88),
     (.string, 89), (.punct .plus, 92), (.punct .minus, 93), (.punct .leftParen, 85),
     (.punct .leftBracket, 91)],
    [],
    [(.identifier, 74), (.access, 75), (.expr, 188), (.simpleExpr, 76), (.term, 77),
     (.factor, 78), (.power, 80), (.primary, 81), (.constant, 82), (.functionCall, 83),
     (.setConstructor, 84), (.sign, 79)], none⟩]

def rowsFrom180 : List Row :=
  [⟨[],
    [(55, 0x280181e0600000)],
    [], none⟩,
   ⟨[],
    [(56, 0x280181e0600000)],
    [], none⟩,
   ⟨[],
    [(65, 0x40002000000000)],
    [], none⟩,
   ⟨[],
    [(68, 0x10002000000000)],
    [], none⟩,
   ⟨[(.punct .colon, 189)],
    [(70, 0x10002000000000)],
    [], none⟩,
   ⟨[(.keyword .or, 126), (.punct .plus, 124), (.punct .minus, 125), (.punct .rightBracket, 190)],
    [],
    [(.addingOp, 116)], none⟩,
   ⟨[],
    [(44, 0x800000008)],
    [], none⟩,
   ⟨[],
    [(49, 0x800000208)],
    [], none⟩,
   ⟨[(.keyword .do, 191)],
    [],
    [], none⟩,
   ⟨[(.keyword .not, 86), (.keyword .nil, 90), (.identifier, 6), (.integer, 87), (.real, 88),
     (.string, 89), (.punct .plus, 92), (.punct .minus, 93), (.punct .leftParen, 85),
     (.punct .leftBracket, 91)],
    [],
    [(.identifier, 74), (.access, 75), (.expr, 192), (.simpleExpr, 76), (.term, 77),
     (.factor, 78), (.power, 80), (.primary, 81), (.constant, 82), (.functionCall, 83),
     (.setConstructor, 84), (.sign, 79)], none⟩,
   ⟨[(.keyword .of, 193)],
    [],
    [], none⟩,
   ⟨[],
    [(54, 0x82000168c)],
    [], none⟩,
   ⟨[],
    [(71, 0x10002000000000)],
    [], none⟩,
   ⟨[(.keyword .array, 63), (.keyword .real, 57), (.keyword .integer, 58),
     (.keyword .boolean, 59), (.keyword .string, 60), (.keyword .char, 61)],
    [],
    [(.typeDenoter, 194), (.arrayType, 62)], none⟩,
   ⟨[],
    [(35, 0x10000800000000)],
    [], none⟩]

/-- The rows of all states, in order. -/
def rows : Array Row :=
  (rowsFrom0 ++ rowsFrom20 ++ rowsFrom40 ++ rowsFrom60 ++ rowsFrom80
    ++ rowsFrom100 ++ rowsFrom120 ++ rowsFrom140 ++ rowsFrom160 ++ rowsFrom180).toArray

def automaton : Automaton := ⟨rules, rows, 3⟩

/-- Parses a list of tokens. -/
def parse (tokens : List Lexeme) : Outcome := automaton.parse tokens

end PascalStack.Grammar

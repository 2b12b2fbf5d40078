import PascalStack.Grammar.Symbol

/-!
# The grammar

Each rule gives a phrase, the symbols it may consist of, and the tree it stands for.

* `Action`   a function from the values of the symbols on the right to a result;
* `Rule`     one rule of the grammar;
* `rules`    all of them.  Statements are split into open ones, which end in an `if` without `else`,
             and closed ones, so that an `else` belongs to the nearest `if`.
-/

namespace PascalStack

/-- A function that takes the values of the symbols in turn. -/
abbrev Action : List Symbol → Type → Type
  | [], R => R
  | X :: rest, R => X.Value → Action rest R

structure Rule where
  lhs : Nonterminal
  rhs : List Symbol
  action : Action rhs lhs.Value

namespace Grammar

abbrev phrase (n : Nonterminal) : Symbol := .nonterminal n
abbrev word (k : Keyword) : Symbol := .terminal (.keyword k)
abbrev mark (p : Punct) : Symbol := .terminal (.punct p)

/-- The program and its headings. -/
def programRules : List Rule :=
  [⟨.program, [phrase .programHeading, mark .semicolon, phrase .block, mark .dot],
      fun h _ b _ => ⟨h.1, h.2, b⟩⟩,
   ⟨.programHeading, [word .program, phrase .identifier], fun _ x => (x, [])⟩,
   ⟨.programHeading,
      [word .program, phrase .identifier, mark .leftParen, phrase .identifierList,
       mark .rightParen],
      fun _ x _ ps _ => (x, ps)⟩,
   ⟨.identifier, [.terminal .identifier], fun x => x⟩,
   ⟨.identifierList, [phrase .identifier], fun x => [x]⟩,
   ⟨.identifierList, [phrase .identifierList, mark .comma, phrase .identifier],
      fun xs _ x => xs ++ [x]⟩,
   ⟨.block, [phrase .functionPart, phrase .variablePart, phrase .compound],
      fun fs vs ss => .mk fs vs ss⟩]

def functionRules : List Rule :=
  [⟨.functionPart, [], []⟩,
   ⟨.functionPart, [phrase .functionList, mark .semicolon], fun fs _ => fs⟩,
   ⟨.functionList, [phrase .functionDecl], fun f => [f]⟩,
   ⟨.functionList, [phrase .functionList, mark .semicolon, phrase .functionDecl],
      fun fs _ f => fs ++ [f]⟩,
   ⟨.functionDecl, [phrase .heading, mark .semicolon, phrase .directive],
      fun h _ d => .directive h d⟩,
   ⟨.functionDecl, [phrase .functionName, mark .semicolon, phrase .block],
      fun x _ b => .body x b⟩,
   ⟨.functionDecl, [phrase .heading, mark .semicolon, phrase .block],
      fun h _ b => .definition h b⟩,
   ⟨.directive, [word .forward], fun _ => .forward⟩,
   ⟨.directive, [word .external], fun _ => .external⟩,
   ⟨.heading, [word .function, phrase .identifier, mark .colon, phrase .typeDenoter],
      fun _ x _ t => ⟨x, [], t⟩⟩,
   ⟨.heading,
      [word .function, phrase .identifier, mark .leftParen, phrase .parameterSections,
       mark .rightParen, mark .colon, phrase .typeDenoter],
      fun _ x _ ps _ _ t => ⟨x, ps, t⟩⟩,
   ⟨.functionName, [word .function, phrase .identifier], fun _ x => x⟩,
   ⟨.parameterSections, [phrase .parameterSection], fun p => [p]⟩,
   ⟨.parameterSections, [phrase .parameterSections, mark .semicolon, phrase .parameterSection],
      fun ps _ p => ps ++ [p]⟩,
   ⟨.parameterSection, [phrase .identifierList, mark .colon, phrase .typeDenoter],
      fun xs _ t => .value xs t⟩,
   ⟨.parameterSection, [word .var, phrase .identifierList, mark .colon, phrase .typeDenoter],
      fun _ xs _ t => .reference xs t⟩,
   ⟨.parameterSection, [phrase .heading], fun h => .function h.name h.parameters h.result⟩]

def variableRules : List Rule :=
  [⟨.variablePart, [], []⟩,
   ⟨.variablePart, [word .var, phrase .variableList, mark .semicolon], fun _ vs _ => vs⟩,
   ⟨.variableList, [phrase .varDecl], fun v => [v]⟩,
   ⟨.variableList, [phrase .variableList, mark .semicolon, phrase .varDecl],
      fun vs _ v => vs ++ [v]⟩,
   ⟨.varDecl, [phrase .identifierList, mark .colon, phrase .typeDenoter], fun xs _ t => ⟨xs, t⟩⟩,
   ⟨.typeDenoter, [word .real], fun _ => .real⟩,
   ⟨.typeDenoter, [word .integer], fun _ => .integer⟩,
   ⟨.typeDenoter, [word .boolean], fun _ => .boolean⟩,
   ⟨.typeDenoter, [word .string], fun _ => .string⟩,
   ⟨.typeDenoter, [word .char], fun _ => .char⟩,
   ⟨.typeDenoter, [phrase .arrayType], fun t => t⟩,
   ⟨.arrayType,
      [word .array, mark .leftBracket, phrase .simpleExpr, mark .dotDot, phrase .simpleExpr,
       mark .rightBracket, word .of, phrase .typeDenoter],
      fun _ _ low _ high _ _ t => .array low high t⟩]

/-- Statements.  The second rule for an item is the one that repairs an error. -/
def statementRules : List Rule :=
  [⟨.compound, [word .begin, phrase .sequence, word .end], fun _ ss _ => ss⟩,
   ⟨.sequence, [phrase .item], fun s => s.toList⟩,
   ⟨.sequence, [phrase .sequence, mark .semicolon, phrase .item], fun ss _ s => ss ++ s.toList⟩,
   ⟨.item, [phrase .statement], fun s => some s⟩,
   ⟨.item, [.error], fun _ => none⟩,
   ⟨.statement, [phrase .openStatement], fun s => s⟩,
   ⟨.statement, [phrase .closedStatement], fun s => s⟩,
   ⟨.openStatement, [word .if, phrase .expr, word .then, phrase .statement],
      fun _ c _ s => .ifThen c s⟩,
   ⟨.openStatement,
      [word .if, phrase .expr, word .then, phrase .closedStatement, word .else,
       phrase .openStatement],
      fun _ c _ s _ t => .ifThenElse c s t⟩,
   ⟨.openStatement, [word .while, phrase .expr, word .do, phrase .openStatement],
      fun _ c _ s => .whileDo c s⟩,
   ⟨.openStatement, [phrase .forHead, phrase .openStatement], fun h s => h.withBody s⟩,
   ⟨.closedStatement, [phrase .assignment], fun s => s⟩,
   ⟨.closedStatement, [phrase .compound], fun ss => .compound ss⟩,
   ⟨.closedStatement,
      [word .if, phrase .expr, word .then, phrase .closedStatement, word .else,
       phrase .closedStatement],
      fun _ c _ s _ t => .ifThenElse c s t⟩,
   ⟨.closedStatement, [word .while, phrase .expr, word .do, phrase .closedStatement],
      fun _ c _ s => .whileDo c s⟩,
   ⟨.closedStatement, [phrase .forHead, phrase .closedStatement], fun h s => h.withBody s⟩,
   ⟨.closedStatement, [phrase .procedureCall], fun s => s⟩,
   ⟨.closedStatement, [], .empty⟩,
   ⟨.forHead,
      [word .for, phrase .identifier, mark .assign, phrase .expr, phrase .direction,
       phrase .expr, word .do],
      fun _ x _ a d b _ => ⟨x, a, d, b⟩⟩,
   ⟨.direction, [word .to], fun _ => .to⟩,
   ⟨.direction, [word .downto], fun _ => .downto⟩,
   ⟨.assignment, [phrase .access, mark .assign, phrase .expr], fun a _ e => .assign a e⟩,
   ⟨.procedureCall, [phrase .identifier, phrase .parameters], fun x ps => .call x ps⟩,
   ⟨.procedureCall, [phrase .identifier], fun x => .call x []⟩]

def accessRules : List Rule :=
  [⟨.access, [phrase .identifier], fun x => .name x⟩,
   ⟨.access, [phrase .access, mark .leftBracket, phrase .exprList, mark .rightBracket],
      fun a _ es _ => .index a es⟩,
   ⟨.access, [phrase .access, mark .dot, phrase .identifier], fun a _ x => .field a x⟩,
   ⟨.access, [phrase .access, mark .upArrow], fun a _ => .deref a⟩,
   ⟨.exprList, [phrase .expr], fun e => [e]⟩,
   ⟨.exprList, [phrase .exprList, mark .comma, phrase .expr], fun es _ e => es ++ [e]⟩,
   ⟨.parameters, [mark .leftParen, phrase .argumentList, mark .rightParen], fun _ ps _ => ps⟩,
   ⟨.argumentList, [phrase .argument], fun p => [p]⟩,
   ⟨.argumentList, [phrase .argumentList, mark .comma, phrase .argument],
      fun ps _ p => ps ++ [p]⟩,
   ⟨.argument, [phrase .expr], fun e => .value e⟩,
   ⟨.argument, [phrase .expr, mark .colon, phrase .expr], fun e _ w => .wide e w⟩,
   ⟨.argument, [phrase .expr, mark .colon, phrase .expr, mark .colon, phrase .expr],
      fun e _ w _ p => .precise e w p⟩]

def exprRules : List Rule :=
  [⟨.expr, [phrase .simpleExpr], fun e => e⟩,
   ⟨.expr, [phrase .simpleExpr, phrase .relationalOp, phrase .simpleExpr],
      fun a op b => .binary op a b⟩,
   ⟨.simpleExpr, [phrase .term], fun e => e⟩,
   ⟨.simpleExpr, [phrase .simpleExpr, phrase .addingOp, phrase .term],
      fun a op b => .binary op a b⟩,
   ⟨.term, [phrase .factor], fun e => e⟩,
   ⟨.term, [phrase .term, phrase .multiplyingOp, phrase .factor], fun a op b => .binary op a b⟩,
   ⟨.factor, [phrase .sign, phrase .factor], fun s e => .signed s e⟩,
   ⟨.factor, [phrase .power], fun e => e⟩,
   ⟨.power, [phrase .primary], fun e => e⟩,
   ⟨.power, [phrase .primary, mark .starStar, phrase .power], fun a _ b => .power a b⟩,
   ⟨.primary, [phrase .access], fun a => .access a⟩,
   ⟨.primary, [phrase .constant], fun c => .constant c⟩,
   ⟨.primary, [phrase .functionCall], fun e => e⟩,
   ⟨.primary, [phrase .setConstructor], fun ms => .set ms⟩,
   ⟨.primary, [mark .leftParen, phrase .expr, mark .rightParen], fun _ e _ => e⟩,
   ⟨.primary, [word .not, phrase .primary], fun _ e => .not e⟩,
   ⟨.constant, [.terminal .integer], fun n => .integer n⟩,
   ⟨.constant, [.terminal .real], fun x => .real x⟩,
   ⟨.constant, [.terminal .string], fun s => .ofLiteral s⟩,
   ⟨.constant, [word .nil], fun _ => .nil⟩,
   ⟨.functionCall, [phrase .identifier, phrase .parameters], fun x ps => .call x ps⟩,
   ⟨.setConstructor, [mark .leftBracket, mark .rightBracket], fun _ _ => []⟩,
   ⟨.setConstructor, [mark .leftBracket, phrase .memberList, mark .rightBracket],
      fun _ ms _ => ms⟩,
   ⟨.memberList, [phrase .member], fun m => [m]⟩,
   ⟨.memberList, [phrase .memberList, mark .comma, phrase .member], fun ms _ m => ms ++ [m]⟩,
   ⟨.member, [phrase .expr], fun e => .single e⟩,
   ⟨.member, [phrase .expr, mark .dotDot, phrase .expr], fun a _ b => .range a b⟩]

def operatorRules : List Rule :=
  [⟨.sign, [mark .plus], fun _ => .plus⟩,
   ⟨.sign, [mark .minus], fun _ => .minus⟩,
   ⟨.relationalOp, [mark .equal], fun _ => .equal⟩,
   ⟨.relationalOp, [mark .notEqual], fun _ => .notEqual⟩,
   ⟨.relationalOp, [mark .less], fun _ => .less⟩,
   ⟨.relationalOp, [mark .greater], fun _ => .greater⟩,
   ⟨.relationalOp, [mark .lessEqual], fun _ => .lessEqual⟩,
   ⟨.relationalOp, [mark .greaterEqual], fun _ => .greaterEqual⟩,
   ⟨.relationalOp, [word .in], fun _ => .member⟩,
   ⟨.addingOp, [mark .plus], fun _ => .add⟩,
   ⟨.addingOp, [mark .minus], fun _ => .subtract⟩,
   ⟨.addingOp, [word .or], fun _ => .or⟩,
   ⟨.multiplyingOp, [mark .star], fun _ => .multiply⟩,
   ⟨.multiplyingOp, [mark .slash], fun _ => .divide⟩,
   ⟨.multiplyingOp, [word .div], fun _ => .integerDivide⟩,
   ⟨.multiplyingOp, [word .mod], fun _ => .modulo⟩,
   ⟨.multiplyingOp, [word .and], fun _ => .and⟩]

/-- All rules; the automaton refers to a rule by its place in this list. -/
def rules : Array Rule :=
  (programRules ++ functionRules ++ variableRules ++ statementRules ++ accessRules ++ exprRules
    ++ operatorRules).toArray

end Grammar

end PascalStack

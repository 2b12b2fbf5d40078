import PascalStack.Proofs.Grammar.Nearest
import PascalStack.Tree.Printer

/-!
# The nodes of a tree

A node is a part of a tree that a printer can be sent to.

* `Node`, `Node.children`, `Node.Within`   nodes, and which stand inside which;
* `Node.visit`, `Node.outline`             how a node is printed, and its outlines;
* `Node.All`                               what holds of a node and of all nodes inside it;
* `Node.Named`                             all names in a node are names that the lexer reads;
* `rules_spelled`                          the rules of the grammar put no other names into trees;
* `tree_named`                             so the tree of a source text has no others, repaired or not.
-/

namespace PascalStack

/-- A part of a tree that a printer can be sent to. -/
inductive Node where
  | program (p : Program)
  | block (b : Block)
  | function (f : FunctionDecl)
  | declaration (v : VarDecl)
  | type (t : TypeDenoter)
  | stmt (s : Stmt)
  | expr (e : Expr)
  | access (a : Access)

/-! ## parts of nodes -/

def Argument.exprs : Argument → List Expr
  | .value e => [e]
  | .wide e width => [e, width]
  | .precise e width precision => [e, width, precision]

def Member.exprs : Member → List Expr
  | .single e => [e]
  | .range low high => [low, high]

mutual

def ParameterSection.names : ParameterSection → List String
  | .value names _ => names
  | .reference names _ => names
  | .function name parameters _ => name :: sectionNames parameters

def sectionNames : List ParameterSection → List String
  | [] => []
  | p :: ps => p.names ++ sectionNames ps

end

mutual

def ParameterSection.types : ParameterSection → List TypeDenoter
  | .value _ type => [type]
  | .reference _ type => [type]
  | .function _ parameters result => sectionTypes parameters ++ [result]

def sectionTypes : List ParameterSection → List TypeDenoter
  | [] => []
  | p :: ps => p.types ++ sectionTypes ps

end

def Heading.names (h : Heading) : List String := h.name :: sectionNames h.parameters
def Heading.types (h : Heading) : List TypeDenoter := sectionTypes h.parameters ++ [h.result]

namespace Node

def children : Node → List Node
  | program p => [block p.block]
  | block (.mk functions declarations statements) =>
    functions.map function ++ (declarations.map declaration ++ statements.map stmt)
  | function (.definition heading b) => heading.types.map type ++ [block b]
  | function (.directive heading _) => heading.types.map type
  | function (.body _ b) => [block b]
  | declaration v => [type v.type]
  | type (.array low high element) => [expr low, expr high, type element]
  | type _ => []
  | stmt (.compound body) => body.map stmt
  | stmt (.assign target value) => [access target, expr value]
  | stmt (.ifThen condition s) => [expr condition, stmt s]
  | stmt (.ifThenElse condition s t) => [expr condition, stmt s, stmt t]
  | stmt (.whileDo condition s) => [expr condition, stmt s]
  | stmt (.forDo _ initial _ final s) => [expr initial, expr final, stmt s]
  | stmt (.call _ arguments) => (arguments.flatMap Argument.exprs).map expr
  | expr (.access a) => [access a]
  | expr (.call _ arguments) => (arguments.flatMap Argument.exprs).map expr
  | expr (.binary _ left right) => [expr left, expr right]
  | expr (.signed _ operand) => [expr operand]
  | expr (.power base exponent) => [expr base, expr exponent]
  | expr (.not operand) => [expr operand]
  | expr (.constant _) => []
  | expr (.set members) => (members.flatMap Member.exprs).map expr
  | access (.name _) => []
  | access (.index base indices) => access base :: indices.map expr
  | access (.field base _) => [access base]
  | access (.deref base) => [access base]

def names : Node → List String
  | program p => p.name :: p.parameters
  | function (.definition heading _) => heading.names
  | function (.directive heading _) => heading.names
  | function (.body name _) => [name]
  | declaration v => v.names
  | stmt (.forDo control _ _ _ _) => [control]
  | stmt (.call name _) => [name]
  | expr (.call name _) => [name]
  | access (.name id) => [id]
  | access (.field _ name) => [name]
  | _ => []

/-- A node is the other one or stands somewhere inside it. -/
def Within : Node → Node → Prop := Relation.ReflTransGen fun m n => m ∈ n.children

def visit : Node → Printing
  | program p => p.visit
  | block b => b.visit
  | function f => f.visit
  | declaration v => v.visit
  | type t => t.visit
  | stmt s => s.visit
  | expr e => e.visit
  | access a => a.visit

def outline : Node → List Outline
  | program p => [p.outline]
  | block b => b.outline
  | function f => [f.outline]
  | declaration v => [v.outline]
  | type t => [t.outline]
  | stmt s => s.outline
  | expr e => [e.outline]
  | access a => [a.outline]

/-- All nodes inside a node, itself among them, have a property. -/
def All (good : Node → Prop) (n : Node) : Prop := ∀ m : Node, m.Within n → good m

section
variable {good : Node → Prop} {n m : Node}

theorem All.self (h : n.All good) : good n := h n .refl

theorem All.within (h : n.All good) (hm : m.Within n) : m.All good := fun m' hm' => h m' (hm'.trans hm)

theorem All.child (h : n.All good) (hm : m ∈ n.children) : m.All good := h.within (.single hm)

theorem All.mk (h : good n) (hchildren : ∀ m ∈ n.children, m.All good) : n.All good := by
  intro m hm
  rcases Relation.ReflTransGen.cases_tail hm with rfl | ⟨m', hm', hchild⟩
  · exact h
  · exact hchildren m' hchild m hm'

end

def Named : Node → Prop := All fun n => ∀ x ∈ n.names, IsName x

end Node

/-! ## names in derived values -/

/-- The names of parameters, and those in their types, are names. -/
structure ParameterSection.Named (p : ParameterSection) : Prop where
  names : ∀ x ∈ p.names, IsName x
  types : ∀ t ∈ p.types, (Node.type t).Named

structure Heading.Named (h : Heading) : Prop where
  names : ∀ x ∈ h.names, IsName x
  types : ∀ t ∈ h.types, (Node.type t).Named

structure ForHead.Named (h : ForHead) : Prop where
  control : IsName h.control
  initial : (Node.expr h.initial).Named
  final : (Node.expr h.final).Named

def Argument.Named (a : Argument) : Prop := ∀ e ∈ a.exprs, (Node.expr e).Named
def Member.Named (m : Member) : Prop := ∀ e ∈ m.exprs, (Node.expr e).Named

/-- The names in the value of a phrase are names. -/
def Symbol.Spelled : (X : Symbol) → X.Value → Prop
  | .terminal .identifier, x | .nonterminal .identifier, x | .nonterminal .functionName, x => IsName x
  | .nonterminal .identifierList, xs => ∀ x ∈ xs, IsName x
  | .nonterminal .program, p => (Node.program p).Named
  | .nonterminal .programHeading, h => IsName h.1 ∧ ∀ x ∈ h.2, IsName x
  | .nonterminal .block, b => (Node.block b).Named
  | .nonterminal .functionPart, fs | .nonterminal .functionList, fs => ∀ f ∈ fs, (Node.function f).Named
  | .nonterminal .functionDecl, f => (Node.function f).Named
  | .nonterminal .heading, h => Heading.Named h
  | .nonterminal .parameterSections, ps => ∀ p ∈ ps, ParameterSection.Named p
  | .nonterminal .parameterSection, p => ParameterSection.Named p
  | .nonterminal .variablePart, vs | .nonterminal .variableList, vs => ∀ v ∈ vs, (Node.declaration v).Named
  | .nonterminal .varDecl, v => (Node.declaration v).Named
  | .nonterminal .typeDenoter, t | .nonterminal .arrayType, t => (Node.type t).Named
  | .nonterminal .compound, ss | .nonterminal .sequence, ss => ∀ s ∈ ss, (Node.stmt s).Named
  | .nonterminal .item, s => ∀ t ∈ s.toList, (Node.stmt t).Named
  | .nonterminal .statement, s | .nonterminal .openStatement, s | .nonterminal .closedStatement, s
  | .nonterminal .assignment, s | .nonterminal .procedureCall, s => (Node.stmt s).Named
  | .nonterminal .forHead, h => ForHead.Named h
  | .nonterminal .access, a => (Node.access a).Named
  | .nonterminal .exprList, es => ∀ e ∈ es, (Node.expr e).Named
  | .nonterminal .parameters, as | .nonterminal .argumentList, as => ∀ a ∈ as, Argument.Named a
  | .nonterminal .argument, a => Argument.Named a
  | .nonterminal .expr, e | .nonterminal .simpleExpr, e | .nonterminal .term, e | .nonterminal .factor, e
  | .nonterminal .power, e | .nonterminal .primary, e | .nonterminal .functionCall, e => (Node.expr e).Named
  | .nonterminal .setConstructor, ms | .nonterminal .memberList, ms => ∀ m ∈ ms, Member.Named m
  | .nonterminal .member, m => Member.Named m
  | _, _ => True

def Rule.KeepsSpelled (r : Rule) : Prop :=
  Keeps Symbol.Spelled (Symbol.Spelled (.nonterminal r.lhs)) r.rhs r.action

theorem sectionNames_eq (ps : List ParameterSection) : sectionNames ps = ps.flatMap ParameterSection.names := by
  induction ps with
  | nil => rfl
  | cons p ps ih => rw [sectionNames, ih, List.flatMap_cons]

theorem sectionTypes_eq (ps : List ParameterSection) : sectionTypes ps = ps.flatMap ParameterSection.types := by
  induction ps with
  | nil => rfl
  | cons p ps ih => rw [sectionTypes, ih, List.flatMap_cons]

theorem Heading.named {name : String} {ps : List ParameterSection} {t : TypeDenoter} (hname : IsName name)
    (hps : ∀ p ∈ ps, p.Named) (ht : (Node.type t).Named) : (Heading.mk name ps t).Named := by
  refine ⟨List.forall_mem_cons.2 ⟨hname, ?_⟩, List.forall_mem_append.2 ⟨?_, List.forall_mem_singleton.2 ht⟩⟩
  · rw [sectionNames_eq, List.forall_mem_flatMap]
    exact fun p hp => (hps p hp).names
  · rw [sectionTypes_eq, List.forall_mem_flatMap]
    exact fun p hp => (hps p hp).types

theorem named_arguments {arguments : List Argument} (h : ∀ a ∈ arguments, a.Named) :
    ∀ m ∈ (arguments.flatMap Argument.exprs).map Node.expr, m.Named := by
  rw [List.forall_mem_map, List.forall_mem_flatMap]
  exact h

theorem programRules_spelled : ∀ r ∈ Grammar.programRules, r.KeepsSpelled := by
  simp only [Grammar.programRules, List.forall_mem_cons, Rule.KeepsSpelled, Keeps, Symbol.Spelled]
  refine ⟨fun h hh _ _ b hb _ _ => ?_, fun _ _ x hx => ⟨hx, List.forall_mem_nil _⟩,
    fun _ _ x hx _ _ ps hps _ _ => ⟨hx, hps⟩, fun x hx => hx, fun x hx => ⟨hx, List.forall_mem_nil _⟩,
    fun xs hxs _ _ x hx => List.forall_mem_append.2 ⟨hxs, List.forall_mem_singleton.2 hx⟩, ?_⟩
  · exact .mk (List.forall_mem_cons.2 hh) (List.forall_mem_singleton.2 hb)
  · refine ⟨fun fs hfs vs hvs ss hss => .mk (List.forall_mem_nil _) ?_, List.forall_mem_nil _⟩
    refine List.forall_mem_append.2 ⟨List.forall_mem_map.2 hfs, List.forall_mem_append.2 ⟨?_, ?_⟩⟩
    · exact List.forall_mem_map.2 hvs
    · exact List.forall_mem_map.2 hss

theorem functionRules_spelled : ∀ r ∈ Grammar.functionRules, r.KeepsSpelled := by
  simp only [Grammar.functionRules, List.forall_mem_cons, Rule.KeepsSpelled, Keeps, Symbol.Spelled]
  refine ⟨List.forall_mem_nil _, fun fs hfs _ _ => hfs, fun f hf => ⟨hf, List.forall_mem_nil _⟩,
    fun fs hfs _ _ f hf => List.forall_mem_append.2 ⟨hfs, List.forall_mem_singleton.2 hf⟩, ?_⟩
  -- the three forms of a declaration
  refine ⟨fun h hh _ _ d _ => .mk hh.names (List.forall_mem_map.2 hh.types),
    fun x hx _ _ b hb => .mk (List.forall_mem_singleton.2 hx) (List.forall_mem_singleton.2 hb),
    fun h hh _ _ b hb => .mk hh.names (List.forall_mem_append.2 ⟨List.forall_mem_map.2 hh.types, ?_⟩),
    fun _ _ => trivial, fun _ _ => trivial, ?_⟩
  · exact List.forall_mem_singleton.2 hb
  -- headings and parameters
  exact ⟨fun _ _ x hx _ _ t ht => Heading.named hx (List.forall_mem_nil _) ht,
    fun _ _ x hx _ _ ps hps _ _ _ _ t ht => Heading.named hx hps ht, fun _ _ x hx => hx,
    fun p hp => ⟨hp, List.forall_mem_nil _⟩,
    fun ps hps _ _ p hp => List.forall_mem_append.2 ⟨hps, List.forall_mem_singleton.2 hp⟩,
    fun xs hxs _ _ t ht => ⟨hxs, List.forall_mem_singleton.2 ht⟩,
    fun _ _ xs hxs _ _ t ht => ⟨hxs, List.forall_mem_singleton.2 ht⟩, fun h hh => ⟨hh.names, hh.types⟩,
    List.forall_mem_nil _⟩

theorem variableRules_spelled : ∀ r ∈ Grammar.variableRules, r.KeepsSpelled := by
  have hscalar : ∀ t : TypeDenoter, (Node.type t).children = [] → (Node.type t).Named := by
    intro t ht
    refine .mk (List.forall_mem_nil _) ?_
    rw [ht]
    exact List.forall_mem_nil _
  simp only [Grammar.variableRules, List.forall_mem_cons, Rule.KeepsSpelled, Keeps, Symbol.Spelled]
  refine ⟨List.forall_mem_nil _, fun _ _ vs hvs _ _ => hvs, fun v hv => ⟨hv, List.forall_mem_nil _⟩,
    fun vs hvs _ _ v hv => List.forall_mem_append.2 ⟨hvs, List.forall_mem_singleton.2 hv⟩,
    fun xs hxs _ _ t ht => .mk hxs (List.forall_mem_singleton.2 ht), fun _ _ => hscalar _ rfl,
    fun _ _ => hscalar _ rfl, fun _ _ => hscalar _ rfl, fun _ _ => hscalar _ rfl, fun _ _ => hscalar _ rfl,
    fun t ht => ht, fun _ _ _ _ low hlow _ _ high hhigh _ _ _ _ t ht => ?_, List.forall_mem_nil _⟩
  exact .mk (List.forall_mem_nil _)
    (List.forall_mem_cons.2 ⟨hlow, List.forall_mem_cons.2 ⟨hhigh, List.forall_mem_singleton.2 ht⟩⟩)

section
variable {c e : Expr} {s t : Stmt}

theorem named_ifThenElse (hc : (Node.expr c).Named) (hs : (Node.stmt s).Named) (ht : (Node.stmt t).Named) :
    (Node.stmt (.ifThenElse c s t)).Named :=
  .mk (List.forall_mem_nil _)
    (List.forall_mem_cons.2 ⟨hc, List.forall_mem_cons.2 ⟨hs, List.forall_mem_singleton.2 ht⟩⟩)

theorem named_whileDo (hc : (Node.expr c).Named) (hs : (Node.stmt s).Named) :
    (Node.stmt (.whileDo c s)).Named :=
  .mk (List.forall_mem_nil _) (List.forall_mem_cons.2 ⟨hc, List.forall_mem_singleton.2 hs⟩)

theorem ForHead.Named.withBody {h : ForHead} (hh : h.Named) (hs : (Node.stmt s).Named) :
    (Node.stmt (h.withBody s)).Named :=
  .mk (List.forall_mem_singleton.2 hh.control)
    (List.forall_mem_cons.2 ⟨hh.initial, List.forall_mem_cons.2 ⟨hh.final, List.forall_mem_singleton.2 hs⟩⟩)

end

theorem statementRules_spelled : ∀ r ∈ Grammar.statementRules, r.KeepsSpelled := by
  simp only [Grammar.statementRules, List.forall_mem_cons, Rule.KeepsSpelled, Keeps, Symbol.Spelled]
  refine ⟨fun _ _ ss hss _ _ => hss, fun s hs => hs,
    fun ss hss _ _ s hs => List.forall_mem_append.2 ⟨hss, hs⟩, fun s hs => List.forall_mem_singleton.2 hs,
    fun _ _ => List.forall_mem_nil _, fun s hs => hs, fun s hs => hs, ?_⟩
  -- open statements
  refine ⟨fun _ _ c hc _ _ s hs => .mk (List.forall_mem_nil _) ?_,
    fun _ _ c hc _ _ s hs _ _ t ht => named_ifThenElse hc hs ht,
    fun _ _ c hc _ _ s hs => named_whileDo hc hs, fun h hh s hs => hh.withBody hs, ?_⟩
  · exact List.forall_mem_cons.2 ⟨hc, List.forall_mem_singleton.2 hs⟩
  -- closed statements
  refine ⟨fun s hs => hs, fun ss hss => .mk (List.forall_mem_nil _) (List.forall_mem_map.2 hss),
    fun _ _ c hc _ _ s hs _ _ t ht => named_ifThenElse hc hs ht,
    fun _ _ c hc _ _ s hs => named_whileDo hc hs, fun h hh s hs => hh.withBody hs, fun s hs => hs,
    .mk (List.forall_mem_nil _) (List.forall_mem_nil _), ?_⟩
  refine ⟨fun _ _ x hx _ _ a ha d _ b hb _ _ => ⟨hx, ha, hb⟩, fun _ _ => trivial, fun _ _ => trivial,
    fun a ha _ _ e he => .mk (List.forall_mem_nil _) ?_,
    fun x hx ps hps => .mk (List.forall_mem_singleton.2 hx) (named_arguments hps),
    fun x hx => .mk (List.forall_mem_singleton.2 hx) (List.forall_mem_nil _), List.forall_mem_nil _⟩
  exact List.forall_mem_cons.2 ⟨ha, List.forall_mem_singleton.2 he⟩

theorem accessRules_spelled : ∀ r ∈ Grammar.accessRules, r.KeepsSpelled := by
  simp only [Grammar.accessRules, List.forall_mem_cons, Rule.KeepsSpelled, Keeps, Symbol.Spelled]
  refine ⟨fun x hx => .mk (List.forall_mem_singleton.2 hx) (List.forall_mem_nil _),
    fun a ha _ _ es hes _ _ => .mk (List.forall_mem_nil _)
      (List.forall_mem_cons.2 ⟨ha, List.forall_mem_map.2 hes⟩),
    fun a ha _ _ x hx => .mk (List.forall_mem_singleton.2 hx) (List.forall_mem_singleton.2 ha),
    fun a ha _ _ => .mk (List.forall_mem_nil _) (List.forall_mem_singleton.2 ha), ?_⟩
  -- lists of expressions and arguments
  exact ⟨fun e he => ⟨he, List.forall_mem_nil _⟩,
    fun es hes _ _ e he => List.forall_mem_append.2 ⟨hes, List.forall_mem_singleton.2 he⟩,
    fun _ _ ps hps _ _ => hps, fun p hp => ⟨hp, List.forall_mem_nil _⟩,
    fun ps hps _ _ p hp => List.forall_mem_append.2 ⟨hps, List.forall_mem_singleton.2 hp⟩,
    fun e he => List.forall_mem_singleton.2 he,
    fun e he _ _ w hw => List.forall_mem_cons.2 ⟨he, List.forall_mem_singleton.2 hw⟩,
    fun e he _ _ w hw _ _ p hp =>
      List.forall_mem_cons.2 ⟨he, List.forall_mem_cons.2 ⟨hw, List.forall_mem_singleton.2 hp⟩⟩,
    List.forall_mem_nil _⟩

theorem exprRules_spelled : ∀ r ∈ Grammar.exprRules, r.KeepsSpelled := by
  have hbinary : ∀ (op : BinaryOp) (a b : Expr), (Node.expr a).Named → (Node.expr b).Named →
      (Node.expr (.binary op a b)).Named := fun op a b ha hb =>
    .mk (List.forall_mem_nil _) (List.forall_mem_cons.2 ⟨ha, List.forall_mem_singleton.2 hb⟩)
  simp only [Grammar.exprRules, List.forall_mem_cons, Rule.KeepsSpelled, Keeps, Symbol.Spelled]
  refine ⟨fun e he => he, fun a ha op _ b hb => hbinary op a b ha hb, fun e he => he,
    fun a ha op _ b hb => hbinary op a b ha hb, fun e he => he,
    fun a ha op _ b hb => hbinary op a b ha hb,
    fun s _ e he => .mk (List.forall_mem_nil _) (List.forall_mem_singleton.2 he), fun e he => he,
    fun e he => he, fun a ha _ _ b hb => .mk (List.forall_mem_nil _) ?_, ?_⟩
  · exact List.forall_mem_cons.2 ⟨ha, List.forall_mem_singleton.2 hb⟩
  -- primaries and constants
  refine ⟨fun a ha => .mk (List.forall_mem_nil _) (List.forall_mem_singleton.2 ha),
    fun c _ => .mk (List.forall_mem_nil _) (List.forall_mem_nil _), fun e he => he,
    fun ms hms => .mk (List.forall_mem_nil _) ?_, fun _ _ e he _ _ => he,
    fun _ _ e he => .mk (List.forall_mem_nil _) (List.forall_mem_singleton.2 he),
    fun _ _ => trivial, fun _ _ => trivial, fun _ _ => trivial, fun _ _ => trivial, ?_⟩
  · exact List.forall_mem_map.2 (List.forall_mem_flatMap.2 hms)
  exact ⟨fun x hx ps hps => .mk (List.forall_mem_singleton.2 hx) (named_arguments hps),
    fun _ _ _ _ => List.forall_mem_nil _, fun _ _ ms hms _ _ => hms, fun m hm => ⟨hm, List.forall_mem_nil _⟩,
    fun ms hms _ _ m hm => List.forall_mem_append.2 ⟨hms, List.forall_mem_singleton.2 hm⟩,
    fun e he => List.forall_mem_singleton.2 he,
    fun a ha _ _ b hb => List.forall_mem_cons.2 ⟨ha, List.forall_mem_singleton.2 hb⟩,
    List.forall_mem_nil _⟩

theorem operatorRules_spelled : ∀ r ∈ Grammar.operatorRules, r.KeepsSpelled := by
  simp [Grammar.operatorRules, Rule.KeepsSpelled, Keeps, Symbol.Spelled]

/-- The rules put no names into trees but those they are given. -/
theorem rules_spelled : ∀ r ∈ Grammar.rules, r.KeepsSpelled := by
  intro r hr
  rw [Grammar.rules, List.mem_toArray] at hr
  simp only [List.append_assoc, List.mem_append] at hr
  rcases hr with hr | hr | hr | hr | hr | hr | hr
  · exact programRules_spelled r hr
  · exact functionRules_spelled r hr
  · exact variableRules_spelled r hr
  · exact statementRules_spelled r hr
  · exact accessRules_spelled r hr
  · exact exprRules_spelled r hr
  · exact operatorRules_spelled r hr

theorem automaton_spelled : Grammar.automaton.Kept Token.Named Symbol.Spelled where
  token t ht := by cases t <;> exact ht
  mark _ := trivial
  rules := rules_spelled

/-- **All names in a tree are names that the lexer reads**, whether errors were repaired or not. -/
theorem tree_named {source : String} {p : Program} (h : (report source).tree = some p) :
    (Node.program p).Named := by
  have hparse : (Grammar.parse (lexemes source)).result = .ok p := by
    have htree : (Grammar.parse (lexemes source)).result.toOption = some p := h
    generalize (Grammar.parse (lexemes source)).result = result at htree
    cases result with
    | error e => cases htree
    | ok q =>
      cases htree
      rfl
  have hread : ∀ x ∈ lexemes source, x.token.Named := fun x hx =>
    named_tokens source x.token (List.mem_map_of_mem hx)
  exact parse_keeps_of_tokens automaton_spelled hread hparse

end PascalStack

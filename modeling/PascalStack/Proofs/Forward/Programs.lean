import PascalStack.Proofs.Forward.Bodies
import PascalStack.Proofs.Spelling.Programs

/-!
# Three ways to introduce a function

A function is defined at once, or announced by `forward` and then defined or given its body.

* `Pairing.unannounced`   before the announcement, with no entry of the function;
* `Pairing.apart`         between the announcement and the body, with an entry in one state only;
* `Pairing.settled`       after the body, with entries that calls cannot tell apart;
* `introductions_agree`   the three ways give the same code.
-/

namespace PascalStack

open Compile

/-! ## three pairings -/

namespace Pairing

/-- Equal states in which a function has no entry, and all announced headings are among `fs`. -/
def unannounced (name : String) (fs : List FunctionDecl) : Pairing where
  Function key a b := b = a ∧ (key = foldName name → a = none)
  Pending key a b := b = a ∧ ∀ h ∈ a, .directive h .forward ∈ fs ∧ foldName h.name = key
  Globals _ := True
  Seen _ := True
  Declared key := key ≠ foldName name
  Completed key := key ≠ foldName name
  Announced h := .directive h .forward ∈ fs
  seen _ := trivial
  declared h := h
  alike _ h := by
    rw [h.1]
    exact Signature.Alike.option_refl _
  called _ h := ⟨by rw [h.1], fun hkey => by rw [h.2 hkey]; rfl⟩
  bodied _ h := ⟨by rw [h.1], fun hkey => by rw [h.2 hkey]; rfl⟩
  inserted _ h := ⟨rfl, fun hkey => absurd hkey h⟩
  pending _ h := ⟨h.1, fun _ _ _ _ => trivial⟩
  announced _ h := ⟨rfl, fun k hk => by cases hk; exact ⟨h, rfl⟩⟩
  erased _ := ⟨rfl, fun _ hk => by cases hk⟩
  globals _ _ _ := trivial

/-- States that differ in the entry and the heading of one function, which nothing looks up.  The names in
`completed` may get bodies. -/
def apart (name : String) (A : Option Signature → Option Signature → Prop)
    (B : Option Heading → Option Heading → Prop) (present : Bool) (completed : String → Prop) : Pairing where
  Function key a b := (key ≠ foldName name → b = a) ∧ (key = foldName name → A a b)
  Pending key a b := (key ≠ foldName name → b = a ∧ (completed key →
    ∀ h ∈ a, ∀ id ∈ sectionIdentifiers h.parameters, foldName id ≠ foldName name)) ∧ (key = foldName name → B a b)
  Globals t := t.contains name = present
  Seen key := key ≠ foldName name
  Declared key := key ≠ foldName name
  Completed key := key ≠ foldName name ∧ completed key
  Announced h := ∀ id ∈ sectionIdentifiers h.parameters, foldName id ≠ foldName name
  seen h := h
  declared h := h.1
  alike hkey h := by
    rw [h.1 hkey]
    exact Signature.Alike.option_refl _
  called hkey h := ⟨fun _ => by rw [h.1 hkey], fun he => absurd he hkey⟩
  bodied hkey h := ⟨fun _ => by rw [h.1 hkey], fun he => absurd he hkey⟩
  inserted _ hkey := ⟨fun _ => rfl, fun he => absurd he hkey⟩
  pending hkey h := ⟨(h.1 hkey.1).1, (h.1 hkey.1).2 hkey.2⟩
  announced hkey h := ⟨fun _ => ⟨rfl, fun _ k hk => by cases hk; exact h⟩, fun he => absurd he hkey⟩
  erased hkey := ⟨fun _ => ⟨rfl, fun _ _ hk => by cases hk⟩, fun he => absurd he hkey⟩
  globals {id t} v hkey h := by
    show (t.insert id v).contains name = present
    rw [Table.contains, Table.find?_insert, if_neg (Ne.symm hkey)]
    exact h

/-- States in which the entries of all functions are alike. -/
def settled : Pairing where
  Function _ := Option.Rel Signature.Alike
  Pending _ a b := b = a
  Globals _ := True
  Seen _ := True
  Declared _ := True
  Completed _ := True
  Announced _ := True
  seen _ := trivial
  declared h := h
  alike _ h := h
  called _ h := by
    cases h with
    | none => exact .none
    | some h => exact .some h.markCalled
  bodied _ h := by
    cases h with
    | none => exact .none
    | some h => exact .some h.withBody
  inserted f _ := .some (.refl f)
  pending _ h := ⟨h, fun _ _ _ _ => trivial⟩
  announced _ _ := rfl
  erased _ := rfl
  globals _ _ _ := trivial

end Pairing

/-! ## the announcement -/

/-- An announced heading has the signature of its definition, but for the body. -/
theorem Heading.signature_forward (h : Heading) : h.signature (some .forward)
    = (h.signature none).map fun f => { f with directive := some .forward, hasBody := false } := by
  unfold Heading.signature
  by_cases hmain : foldAscii h.name = "main"
  · rw [if_pos hmain, if_pos hmain]
    rfl
  · rw [if_neg hmain, if_neg hmain]
    by_cases hb : (Builtin.ofName? h.name).isSome = true
    · rw [if_pos hb, if_pos hb]
      rfl
    · rw [if_neg hb, if_neg hb]
      cases parameterList h.parameters with
      | error e => rfl
      | ok ps =>
        cases h.resultType with
        | error e => rfl
        | ok t => rfl

namespace Compile
variable {α : Type}

theorem scopes_bind (k : Scopes → Compile α) (c : Compiler) : (scopes >>= k) c = k c.scopes c := rfl

theorem setScopes_bind (s : Scopes) (k : Unit → Compile α) (c : Compiler) :
    (setScopes s >>= k) c = k () { c with scopes := s } := rfl

theorem get_bind (k : Compiler → Compile α) (c : Compiler) : (get >>= k) c = k c c := rfl

end Compile

section
variable {heading : Heading} {block : Block} {f : Signature} {c : Compiler}

def Compiler.announcing (c : Compiler) (heading : Heading) (f : Signature) : Compiler :=
  { c with
    scopes := { c.scopes with functions := c.scopes.functions.insert heading.name f }
    pending := c.pending.insert heading.name heading }

theorem Scopes.declareFunction_new {s : Scopes} (hnone : s.function? f.label = none)
    (hglobal : s.globals.contains f.label = false) :
    s.declareFunction f = .ok { s with functions := s.functions.insert f.label f } := by
  unfold Scopes.declareFunction
  rw [Table.contains_eq_false.mpr hnone, hglobal]
  rfl

/-- A function that is new can be announced. -/
theorem directive_new (hf : heading.signature (some .forward) = .ok f)
    (hnone : c.scopes.function? heading.name = none)
    (hglobal : c.scopes.globals.contains heading.name = false) :
    (FunctionDecl.directive heading .forward).compile c = .ok [] (c.announcing heading f) := by
  have hlabel := Heading.label_signature hf
  have hdeclare : c.scopes.declareFunction f
      = .ok { c.scopes with functions := c.scopes.functions.insert heading.name f } := by
    rw [← hlabel] at hnone hglobal ⊢
    exact Scopes.declareFunction_new hnone hglobal
  rw [FunctionDecl.compile]
  simp only [bind_eq_ok, check_eq_ok, scopes_eq_ok, setScopes_eq_ok, if_true, modify_eq_ok, pure_eq_ok]
  exact ⟨f, c, ⟨hf, rfl⟩, _, _, ⟨rfl, rfl⟩, _, _, ⟨hdeclare, rfl⟩, (), _, rfl, (), _, rfl, trivial, rfl⟩

def Compiler.defining (c : Compiler) (heading : Heading) (f : Signature) : Compiler :=
  { c with
    scopes := { c.scopes with functions := c.scopes.functions.insert heading.name f }
    pending := c.pending.erase heading.name }

/-- The definition of a function that is new. -/
theorem definition_new (hf : heading.signature none = .ok f)
    (hnone : c.scopes.function? heading.name = none)
    (hglobal : c.scopes.globals.contains heading.name = false) :
    (FunctionDecl.definition heading block).compile c
      = compileBody heading.name heading block (c.defining heading f) := by
  have hlabel := Heading.label_signature hf
  have hdeclare : c.scopes.declareFunction f
      = .ok { c.scopes with functions := c.scopes.functions.insert heading.name f } := by
    rw [← hlabel] at hnone hglobal ⊢
    exact Scopes.declareFunction_new hnone hglobal
  have hannounce : announce heading c = .ok heading.name
      { c with scopes := { c.scopes with functions := c.scopes.functions.insert heading.name f } } := by
    unfold announce
    simp only [bind_eq_ok, check_eq_ok, scopes_eq_ok]
    refine ⟨f, c, ⟨hf, rfl⟩, _, _, ⟨rfl, rfl⟩, ?_⟩
    simp only [hnone, bind_eq_ok, scopes_eq_ok, check_eq_ok, setScopes_eq_ok, pure_eq_ok]
    exact ⟨_, _, ⟨rfl, rfl⟩, _, _, ⟨hdeclare, rfl⟩, (), _, rfl, hlabel, rfl⟩
  rw [FunctionDecl.compile]
  show EStateM.bind (announce heading) _ c = _
  unfold EStateM.bind
  rw [hannounce]
  rfl

/-- The entry of a function that was announced and has no body yet. -/
def Signature.announced (f : Signature) : Signature := { f with directive := some .forward, hasBody := false }

/-- Once it has its body, the entry of an announced function is as good as that of a defined one. -/
theorem Heading.alike_signature (hf : heading.signature none = .ok f) : f.announced.withBody.Alike f := by
  obtain ⟨-, ps, result, -, -, rfl⟩ := Heading.signature_eq_ok hf
  exact .settled rfl rfl

/-- The definition of a function that was announced. -/
theorem definition_announced (hf : heading.signature none = .ok f)
    (hentry : c.scopes.function? heading.name = some f.announced) :
    (FunctionDecl.definition heading block).compile c
      = compileBody heading.name heading block (c.announced heading.name) := by
  have hlabel := Heading.label_signature hf
  have hopen : f.announced.directive = some .forward ∧ f.announced.hasBody = false := ⟨rfl, rfl⟩
  have hsame : ¬ (f.announced.parameters ≠ f.parameters ∨ f.announced.result ≠ f.result) :=
    not_or.mpr ⟨fun h => h rfl, fun h => h rfl⟩
  have hannounce : announce heading c = .ok heading.name
      { c with scopes := c.scopes.modifyFunction heading.name Signature.withBody } := by
    unfold announce
    simp only [bind_eq_ok, check_eq_ok, scopes_eq_ok]
    refine ⟨f, c, ⟨hf, rfl⟩, _, _, ⟨rfl, rfl⟩, ?_⟩
    simp only [hentry, if_pos hopen, if_neg hsame, bind_eq_ok, scopes_eq_ok, setScopes_eq_ok, pure_eq_ok]
    exact ⟨_, _, ⟨rfl, rfl⟩, (), _, rfl, hlabel, rfl⟩
  rw [FunctionDecl.compile]
  show EStateM.bind (announce heading) _ c = _
  unfold EStateM.bind
  rw [hannounce]
  rfl

theorem Compiler.announced_congr (c : Compiler) {name id : String} (h : foldName id = foldName name) :
    c.announced id = c.announced name := by
  simp only [Compiler.announced, Scopes.modifyFunction, Table.modify, Table.erase, h]

/-- The body of a function that was announced. -/
theorem body_announced {name : String} (hname : foldName name = foldName heading.name)
    (hf : heading.signature none = .ok f)
    (hentry : c.scopes.function? heading.name = some f.announced)
    (hpending : c.pending.find? heading.name = some heading) :
    (FunctionDecl.body name block).compile c = compileBody heading.name heading block (c.announced heading.name) := by
  have hlabel : f.announced.label = heading.name := (Heading.label_signature hf : f.label = heading.name)
  have hentry : c.scopes.function? name = some f.announced := (c.scopes.function?_congr hname).trans hentry
  have hpending : c.pending.find? name = some heading := (c.pending.find?_congr hname).trans hpending
  have hexternal : ¬ f.announced.directive = some .external := by
    intro h
    cases h
  have hbody : ¬ f.announced.hasBody = true := by
    intro h
    cases h
  rw [FunctionDecl.compile, ← c.announced_congr hname, ← hlabel, scopes_bind]
  simp only [hentry]
  rw [if_neg hexternal, if_neg hbody, scopes_bind, setScopes_bind, get_bind]
  simp only [hpending]
  rfl

/-- The declarations that give an announced function its body: a definition, or a body alone. -/
inductive FunctionDecl.Introduces (heading : Heading) (block : Block) : FunctionDecl → Prop
  | definition : Introduces heading block (.definition heading block)
  | body {name : String} (hname : foldName name = foldName heading.name) :
      Introduces heading block (.body name block)

theorem introduced {x : FunctionDecl} (hx : x.Introduces heading block) (hf : heading.signature none = .ok f)
    (hentry : c.scopes.function? heading.name = some f.announced)
    (hpending : c.pending.find? heading.name = some heading) :
    x.compile c = compileBody heading.name heading block (c.announced heading.name) := by
  cases hx with
  | definition => exact definition_announced hf hentry
  | body hname => exact body_announced hname hf hentry hpending

end

/-! ## the steps of the two compilations -/

namespace Pairing

/-- Between the announcement of a function, in the left state, and its body. -/
abbrev announcedFor (heading : Heading) (f : Signature) (completed : String → Prop) : Pairing :=
  apart heading.name (fun a b => a = some f.announced ∧ b = none) (fun a _ => a = some heading) false completed

/-- The body of a function that was announced is compiled as in its definition. -/
theorem introduced_ends {heading : Heading} {block : Block} {f : Signature} {x : FunctionDecl}
    (hx : x.Introduces heading block) (hf : heading.signature none = .ok f) {completed : String → Prop}
    {c d : Compiler} (h : (announcedFor heading f completed).Near c d) :
    settled.Ends (x.compile c) ((FunctionDecl.definition heading block).compile d) := by
  obtain ⟨hentry, hnone⟩ := (h.scopes.functions heading.name).2 rfl
  have hpending := (h.pending heading.name).2 rfl
  have hglobal : d.scopes.globals.contains heading.name = false := by
    rw [h.scopes.same]
    exact h.scopes.globals
  rw [introduced hx hf hentry hpending, definition_new hf hnone hglobal]
  refine compileBody_follows heading.name (fun _ _ => trivial) (fun _ _ => trivial) _ _ ⟨⟨?_, ?_, ?_, ?_, trivial⟩, ?_, ?_⟩
  · show ({ d.scopes with functions := d.scopes.functions.insert heading.name f } : Scopes)
      = { c.scopes with functions := d.scopes.functions.insert heading.name f }
    rw [h.scopes.same]
  · intro id
    show Option.Rel Signature.Alike ((c.scopes.functions.modify heading.name Signature.withBody).find? id)
      ((d.scopes.functions.insert heading.name f).find? id)
    rw [Table.find?_modify, Table.find?_insert]
    by_cases hid : foldName id = foldName heading.name
    · have hentry : c.scopes.functions.find? id = some f.announced :=
        (c.scopes.functions.find?_congr hid).trans hentry
      rw [if_pos hid, if_pos hid, hentry]
      exact .some (Heading.alike_signature hf)
    · rw [if_neg hid, if_neg hid]
      have hsame : d.scopes.functions.find? id = c.scopes.functions.find? id := (h.scopes.functions id).1 hid
      rw [hsame]
      exact Signature.Alike.option_refl _
  · exact h.scopes.left.modify _ _
  · exact h.scopes.right.insert hnone f
  · show d.defining heading f = { c with scopes := (d.defining heading f).scopes, pending := d.pending.erase heading.name }
    unfold Compiler.defining
    rw [h.same]
  · intro id
    show (d.pending.erase heading.name).find? id = (c.pending.erase heading.name).find? id
    rw [Table.find?_erase, Table.find?_erase]
    by_cases hid : foldName id = foldName heading.name
    · rw [if_pos hid, if_pos hid]
    · rw [if_neg hid, if_neg hid]
      exact ((h.pending id).1 hid).1

section
variable {name : String} {before : List FunctionDecl} {completed : String → Prop} {c : Compiler}

/-- The headings that were announced before do not speak of the function. -/
theorem Near.pending_apart (h : (unannounced name before).Near c c)
    (hheadings : ∀ k, .directive k .forward ∈ before → completed (foldName k.name) →
      ∀ id ∈ sectionIdentifiers k.parameters, foldName id ≠ foldName name) (id : String) :
    completed (foldName id) → ∀ k ∈ c.pending.find? id,
      ∀ id ∈ sectionIdentifiers k.parameters, foldName id ≠ foldName name := by
  intro hid k hk
  obtain ⟨hmem, hkey⟩ := (h.pending id).2 k hk
  exact hheadings k hmem (by rw [hkey]; exact hid)

/-- Nothing has changed yet. -/
theorem Near.unchanged (h : (unannounced name before).Near c c)
    (hheadings : ∀ k, .directive k .forward ∈ before → completed (foldName k.name) →
      ∀ id ∈ sectionIdentifiers k.parameters, foldName id ≠ foldName name) :
    (apart name (fun a b => a = none ∧ b = none) (fun _ _ => True) (c.scopes.globals.contains name)
      completed).Near c c where
  scopes := ⟨rfl, fun id => ⟨fun _ => rfl, fun hid => ⟨(h.scopes.functions id).2 hid,
    (h.scopes.functions id).2 hid⟩⟩, h.scopes.left, h.scopes.right, rfl⟩
  same := rfl
  pending id := ⟨fun _ => ⟨rfl, h.pending_apart hheadings id⟩, fun _ => trivial⟩

/-- The announcement changes one state. -/
theorem Near.announcing {heading : Heading} (h : (unannounced heading.name before).Near c c) (f : Signature)
    (hglobal : c.scopes.globals.contains heading.name = false)
    (hheadings : ∀ k, .directive k .forward ∈ before → completed (foldName k.name) →
      ∀ id ∈ sectionIdentifiers k.parameters, foldName id ≠ foldName heading.name) :
    (announcedFor heading f completed).Near (c.announcing heading f.announced) c where
  scopes := by
    have hnone : c.scopes.functions.find? heading.name = none := (h.scopes.functions heading.name).2 rfl
    refine ⟨rfl, fun id => ?_, h.scopes.left.insert hnone _, h.scopes.right, hglobal⟩
    show (foldName id ≠ foldName heading.name → c.scopes.functions.find? id = (Table.insert _ _ _).find? id) ∧
      (foldName id = foldName heading.name → (Table.insert _ _ _).find? id = _ ∧ c.scopes.functions.find? id = _)
    rw [Table.find?_insert]
    refine ⟨fun hid => (if_neg hid).symm, fun hid => ⟨if_pos hid, (h.scopes.functions id).2 hid⟩⟩
  same := rfl
  pending id := by
    show (foldName id ≠ foldName heading.name → c.pending.find? id = (Table.insert _ _ _).find? id ∧
      (completed (foldName id) → ∀ k ∈ (Table.insert _ _ _).find? id, _)) ∧
      (foldName id = foldName heading.name → (Table.insert _ _ _).find? id = _)
    rw [Table.find?_insert]
    refine ⟨fun hid => ?_, fun hid => if_pos hid⟩
    rw [if_neg hid]
    exact ⟨rfl, h.pending_apart hheadings id⟩

end

theorem Ends.of_not_ok {P : Pairing} {α : Type} {r r' : EStateM.Result SemanticError Compiler α}
    (h : ∀ a c, r ≠ .ok a c) (h' : ∀ a c, r' ≠ .ok a c) : P.Ends r r' := by
  cases r with
  | ok a c => exact absurd rfl (h a c)
  | error e c =>
    cases r' with
    | ok a c => exact absurd rfl (h' a c)
    | error e' c' => exact .error

end Pairing

theorem compileFunctions_append (fs gs : List FunctionDecl) : compileFunctions (fs ++ gs) = do
    let code ← compileFunctions fs
    let rest ← compileFunctions gs
    return code ++ rest := by
  induction fs with
  | nil =>
    rw [List.nil_append, compileFunctions, pure_bind]
    exact (bind_pure _).symm
  | cons f fs ih =>
    rw [List.cons_append, compileFunctions, compileFunctions, ih]
    simp only [bind_assoc, pure_bind, List.append_assoc]

/-! ## programs -/

section
variable {heading : Heading} {block : Block} {x : FunctionDecl} {before between after : List FunctionDecl}
  {c : Compiler}

theorem Scopes.globals_of_declareFunction {s t : Scopes} {f : Signature} (h : s.declareFunction f = .ok t) :
    s.globals.contains f.label = false := by
  unfold Scopes.declareFunction at h
  split at h
  · cases h
  · rename_i hnot
    rw [Bool.or_eq_true, not_or, Bool.not_eq_true, Bool.not_eq_true] at hnot
    exact hnot.2

/-- A function can be announced only if it could be defined in the same place. -/
theorem directive_eq_ok {code : List Line} {d : Compiler}
    (h : (FunctionDecl.directive heading .forward).compile c = .ok code d) :
    ∃ f, heading.signature none = .ok f ∧ c.scopes.globals.contains heading.name = false := by
  rw [FunctionDecl.compile] at h
  simp only [bind_eq_ok, check_eq_ok, scopes_eq_ok] at h
  obtain ⟨f, _, ⟨hf, rfl⟩, _, _, ⟨rfl, rfl⟩, s, _, ⟨hs, rfl⟩, -⟩ := h
  have hglobal := Scopes.globals_of_declareFunction hs
  rw [Heading.label_signature hf] at hglobal
  rw [Heading.signature_forward] at hf
  cases hnone : heading.signature none with
  | ok g => exact ⟨g, rfl, hglobal⟩
  | error e =>
    rw [hnone] at hf
    cases hf

theorem definition_eq_ok {code : List Line} {d : Compiler} (hnone : c.scopes.function? heading.name = none)
    (h : (FunctionDecl.definition heading block).compile c = .ok code d) :
    ∃ f, heading.signature none = .ok f ∧ c.scopes.globals.contains heading.name = false := by
  rw [FunctionDecl.compile] at h
  obtain ⟨label, _, ha, -⟩ := bind_eq_ok.mp h
  obtain ⟨f, hf, ⟨g, hg, -⟩ | ⟨-, s, hs, -⟩⟩ := announce_eq_ok ha
  · cases hnone.symm.trans hg
  · have hglobal := Scopes.globals_of_declareFunction hs
    rw [Heading.label_signature hf] at hglobal
    exact ⟨f, hf, hglobal⟩

/-- The names of the functions that get bodies in `fs`. -/
def completedIn (fs : List FunctionDecl) (key : String) : Prop :=
  ∃ name block, .body name block ∈ fs ∧ foldName name = key

theorem fits_unannounced (hbefore : ∀ f ∈ before, foldName f.name ≠ foldName heading.name) :
    ∀ f ∈ before, f.Fits (.unannounced heading.name before) := by
  intro f hf
  have hname := hbefore f hf
  cases f with
  | definition h b => exact ⟨hname, fun _ _ => trivial, fun _ _ => trivial⟩
  | directive h d =>
    refine ⟨hname, fun hd => ?_⟩
    subst hd
    exact hf
  | body name b => exact ⟨hname, fun _ _ => trivial⟩

theorem fits_apart (hbetween : ∀ f ∈ between, ∀ id ∈ f.identifiers, foldName id ≠ foldName heading.name)
    (A : Option Signature → Option Signature → Prop) (B : Option Heading → Option Heading → Prop) (present : Bool) :
    ∀ f ∈ between, f.Fits (.apart heading.name A B present (completedIn between)) := by
  intro f hf
  have hids := hbetween f hf
  have hname := hids f.name f.name_mem_identifiers
  cases f with
  | definition h b =>
    refine ⟨hname, fun id hid => hids id ?_, fun id hid => hids id (List.mem_append_right _ hid)⟩
    exact List.mem_append_left _ (List.mem_cons_of_mem _ (List.mem_append_left _ hid))
  | directive h d =>
    exact ⟨hname, fun _ id hid => hids id (List.mem_cons_of_mem _ (List.mem_append_left _ hid))⟩
  | body name b => exact ⟨⟨hname, name, b, hf, rfl⟩, fun id hid => hids id (List.mem_cons_of_mem _ hid)⟩

theorem fits_settled (f : FunctionDecl) : f.Fits .settled := by
  cases f with
  | definition h b => exact ⟨trivial, fun _ _ => trivial, fun _ _ => trivial⟩
  | directive h d => exact ⟨trivial, fun _ => trivial⟩
  | body name b => exact ⟨trivial, fun _ _ => trivial⟩

/-- From a state in which the function is not announced, its announcement and its body, with declarations in
between, are compiled as its definition alone. -/
theorem introductions_end (hx : x.Introduces heading block) (h : (Pairing.unannounced heading.name before).Near c c)
    (hbetween : ∀ f ∈ between, ∀ id ∈ f.identifiers, foldName id ≠ foldName heading.name)
    (hheadings : ∀ k, .directive k .forward ∈ before → completedIn between (foldName k.name) →
      ∀ id ∈ sectionIdentifiers k.parameters, foldName id ≠ foldName heading.name) :
    Pairing.settled.Ends (compileFunctions (.directive heading .forward :: (between ++ x :: after)) c)
      (compileFunctions (between ++ .definition heading block :: after) c) := by
  by_cases hgood : ∃ f, heading.signature none = .ok f ∧ c.scopes.globals.contains heading.name = false
  · obtain ⟨f, hf, hglobal⟩ := hgood
    have hforward : heading.signature (some .forward) = .ok f.announced := by
      rw [Heading.signature_forward, hf]
      rfl
    have hdirective := directive_new hforward ((h.scopes.functions heading.name).2 rfl) hglobal
    have hleft : compileFunctions (.directive heading .forward :: (between ++ x :: after)) c
        = compileFunctions (between ++ x :: after) (c.announcing heading f.announced) := by
      show EStateM.bind (FunctionDecl.directive heading .forward).compile _ c = _
      unfold EStateM.bind
      rw [hdirective]
      show (compileFunctions (between ++ x :: after) >>= pure) _ = _
      rw [bind_pure]
    rw [hleft, compileFunctions_append, compileFunctions_append]
    have hstart := h.announcing f hglobal hheadings
    refine (compileFunctions_follows (fits_apart hbetween _ _ _) _ _ hstart).bind fun _ c d hcd => ?_
    refine Pairing.Ends.bind (P := .settled) ?_ fun _ c d hcd => .ok hcd
    refine (Pairing.introduced_ends hx hf hcd).bind fun _ c d hcd => ?_
    exact (compileFunctions_follows (fun f _ => fits_settled f) c d hcd).bind fun _ c d hcd => .ok hcd
  · -- the function can be introduced neither here nor after the declarations in between
    refine .of_not_ok (fun code d hok => hgood ?_) (fun code d hok => hgood ?_)
    · obtain ⟨_, _, hdirective, -⟩ := bind_eq_ok.mp hok
      exact directive_eq_ok hdirective
    · rw [compileFunctions_append] at hok
      obtain ⟨_, d₁, hok₁, hok⟩ := bind_eq_ok.mp hok
      obtain ⟨_, _, hok, -⟩ := bind_eq_ok.mp hok
      obtain ⟨_, _, hdefinition, -⟩ := bind_eq_ok.mp hok
      have hnear := (compileFunctions_follows (fits_apart hbetween _ _ _)).self (h.unchanged hheadings) hok₁
      obtain ⟨f, hf, hglobal⟩ := definition_eq_ok ((hnear.scopes.functions heading.name).2 rfl).1 hdefinition
      exact ⟨f, hf, hnear.scopes.globals.symm.trans hglobal⟩

/-- The same after the declarations before it. -/
theorem functions_end (hx : x.Introduces heading block) (h : (Pairing.unannounced heading.name before).Near c c)
    (hbefore : ∀ f ∈ before, foldName f.name ≠ foldName heading.name)
    (hbetween : ∀ f ∈ between, ∀ id ∈ f.identifiers, foldName id ≠ foldName heading.name)
    (hheadings : ∀ k, .directive k .forward ∈ before → completedIn between (foldName k.name) →
      ∀ id ∈ sectionIdentifiers k.parameters, foldName id ≠ foldName heading.name) :
    Pairing.settled.Ends (compileFunctions (before ++ .directive heading .forward :: between ++ x :: after) c)
      (compileFunctions (before ++ between ++ .definition heading block :: after) c) := by
  have hfirst := compileFunctions_follows (fits_unannounced hbefore)
  rw [List.append_assoc, List.append_assoc, List.cons_append, compileFunctions_append, compileFunctions_append]
  refine hfirst.self_bind h fun _ d hd => Pairing.Ends.bind (P := .settled) ?_ fun _ c d hcd => .ok hcd
  exact introductions_end hx hd hbetween hheadings

end

theorem Signature.Alike.isMissing {f g : Signature} (h : f.Alike g) : g.isMissing = f.isMissing := by
  cases h with
  | refl => rfl
  | settled hbody hforward => simp [Signature.isMissing, hbody]

theorem Table.Visible.any_values {α : Type} {t : Table α} (h : t.Visible) (p : α → Bool) :
    t.values.any p = true ↔ ∃ name a, t.find? name = some a ∧ p a = true := by
  rw [List.any_eq_true]
  constructor
  · rintro ⟨a, ha, hp⟩
    obtain ⟨⟨key, _⟩, hmem, rfl⟩ := List.mem_map.mp ha
    obtain ⟨name, -, hname⟩ := h key _ hmem
    exact ⟨name, _, hname, hp⟩
  · rintro ⟨name, a, ha, hp⟩
    exact ⟨a, Table.mem_values ha, hp⟩

theorem checkForwards_follows {s t : Scopes} (h : Pairing.settled.Names s t) :
    Pairing.settled.Follows (check (checkForwards s)) (check (checkForwards t)) := by
  have hany : t.functionList.any Signature.isMissing = s.functionList.any Signature.isMissing := by
    rw [(perm_functionList t).any_eq, (perm_functionList s).any_eq, Bool.eq_iff_iff,
      h.right.any_values, h.left.any_values]
    refine exists_congr fun name => ?_
    have hrel := h.functions name
    show (∃ a, t.function? name = some a ∧ _) ↔ ∃ a, s.function? name = some a ∧ _
    generalize s.function? name = a, t.function? name = b at hrel
    cases hrel with
    | none => exact Iff.rfl
    | some hfg =>
      simp only [Option.some.injEq, exists_eq_left', hfg.isMissing]
  cases hs : s.functionList.any Signature.isMissing with
  | false =>
    rw [checkForwards_eq s hs, checkForwards_eq t (hany.trans hs)]
    exact .check _
  | true =>
    obtain ⟨label, hs⟩ := checkForwards_eq_error s hs
    obtain ⟨label', ht⟩ := checkForwards_eq_error t (hany.trans ‹_›)
    rw [hs, ht]
    exact .throw _ _

def Program.withFunctions (p : Program) (fs : List FunctionDecl) : Program :=
  { p with block := .mk fs p.block.declarations p.block.statements }

theorem near_initial (name : String) (fs : List FunctionDecl) :
    (Pairing.unannounced name fs).Near .initial .initial where
  scopes := ⟨rfl, fun _ => ⟨rfl, fun _ => rfl⟩, fun _ _ h => absurd h List.not_mem_nil,
    fun _ _ h => absurd h List.not_mem_nil, trivial⟩
  same := rfl
  pending _ := ⟨rfl, fun _ h => by cases h⟩

/-- Programs whose functions are compiled alike are compiled alike. -/
theorem withFunctions_ends (p : Program) {name : String} {before fs gs : List FunctionDecl}
    (h : ∀ c, (Pairing.unannounced name before).Near c c →
      Pairing.settled.Ends (compileFunctions fs c) (compileFunctions gs c)) :
    Pairing.settled.Ends ((p.withFunctions fs).compile .initial) ((p.withFunctions gs).compile .initial) := by
  have hvariables : (Pairing.unannounced name before).Follows (compileVariables p.block.declarations)
      (compileVariables p.block.declarations) := compileVariables_follows fun _ _ => trivial
  have hstatements : Pairing.settled.Follows (compileAll p.block.statements) (compileAll p.block.statements) :=
    compileAll_follows _ fun _ _ => trivial
  refine hvariables.self_bind (near_initial name before) fun declarations c hc => (h c hc).bind fun functions => ?_
  exact hstatements.bind fun statements => .scopes fun s t hst => .bind (checkForwards_follows hst) fun _ => .pure _

/-- **The three ways to introduce a function are interchangeable.**  A function that is defined at once can as
well be announced, before declarations that do not mention it, and then defined or given its body: either way
a program is compiled to the same code, or rejected.  The bodies in between must not belong to headings that
mention it either. -/
theorem introductions_agree (p : Program) {heading : Heading} {block : Block} {x : FunctionDecl}
    {before between after : List FunctionDecl} (hx : x.Introduces heading block)
    (hbefore : ∀ f ∈ before, foldName f.name ≠ foldName heading.name)
    (hbetween : ∀ f ∈ between, ∀ id ∈ f.identifiers, foldName id ≠ foldName heading.name)
    (hheadings : ∀ h name b, .directive h .forward ∈ before → .body name b ∈ between →
      foldName name = foldName h.name → ∀ id ∈ h.identifiers, foldName id ≠ foldName heading.name)
    (code : List Line) :
    compileTree (p.withFunctions (before ++ between ++ .definition heading block :: after)) = .ok code ↔
      compileTree (p.withFunctions (before ++ .directive heading .forward :: between ++ x :: after)) = .ok code := by
  have hkept : ∀ k, .directive k .forward ∈ before → completedIn between (foldName k.name) →
      ∀ id ∈ sectionIdentifiers k.parameters, foldName id ≠ foldName heading.name := by
    rintro k hk ⟨name, b, hb, hname⟩ id hid
    exact hheadings k name b hk hb hname id (List.mem_cons_of_mem _ (List.mem_append_left _ hid))
  have hfunctions : ∀ c, (Pairing.unannounced heading.name before).Near c c → Pairing.settled.Ends
      (compileFunctions (before ++ .directive heading .forward :: between ++ x :: after) c)
      (compileFunctions (before ++ between ++ .definition heading block :: after) c) :=
    fun _ hc => functions_end hx hc hbefore hbetween hkept
  have hends := withFunctions_ends p hfunctions
  unfold compileTree
  generalize Program.compile (p.withFunctions (before ++ between ++ .definition heading block :: after)) .initial = r,
    Program.compile (p.withFunctions (before ++ .directive heading .forward :: between ++ x :: after)) .initial = r'
    at hends ⊢
  cases hends with
  | ok _ => exact Iff.rfl
  | error =>
    constructor
    · intro h
      cases h
    · intro h
      cases h

/-- The heading of a function `g` with a parameter of a given name. -/
def stepHeading (parameter : String) : Heading :=
  ⟨"g", [.value [parameter] .integer], .integer⟩

def stepBody : FunctionDecl :=
  .body "G" (.mk [] [] [.assign (.name "g") (.constant (.integer 0))])

def recursiveHeading : Heading :=
  ⟨"f", [.value ["n"] .integer], .integer⟩

/-- The body of a function `f` that calls `g` and itself. -/
def recursiveBlock : Block :=
  .mk [] []
    [.ifThenElse (.binary .less (.access (.name "n")) (.constant (.integer 2)))
      (.assign (.name "f") (.constant (.integer 1)))
      (.assign (.name "F")
        (.call "g" [.value (.call "f" [.value (.binary .subtract (.access (.name "n")) (.constant (.integer 1)))])]))]

def printsStep : Program :=
  ⟨"p", [], .mk [] [] [.call "writeln"
    [.value (.call "g" [.value (.call "f" [.value (.constant (.integer 3))])])]]⟩

theorem introductions_agree_printsStep : ∃ code,
    compileTree (printsStep.withFunctions
      [.directive (stepHeading "n") .forward, stepBody, .definition recursiveHeading recursiveBlock]) = .ok code ∧
    compileTree (printsStep.withFunctions
      [.directive (stepHeading "n") .forward, .directive recursiveHeading .forward, stepBody,
        .body "F" recursiveBlock]) = .ok code := by
  have hsome : (compileTree (printsStep.withFunctions [.directive (stepHeading "n") .forward, stepBody,
      .definition recursiveHeading recursiveBlock])).toOption.isSome = true := by decide +kernel
  have hbody : (FunctionDecl.body "F" recursiveBlock).Introduces recursiveHeading recursiveBlock := .body (by decide)
  have hbefore : ∀ f ∈ [FunctionDecl.directive (stepHeading "n") .forward],
      foldName f.name ≠ foldName recursiveHeading.name := by decide
  have hbetween : ∀ f ∈ [stepBody], ∀ id ∈ f.identifiers, foldName id ≠ foldName recursiveHeading.name := by
    decide
  have hheadings : ∀ h name b, .directive h .forward ∈ [FunctionDecl.directive (stepHeading "n") .forward] →
      .body name b ∈ [stepBody] → foldName name = foldName h.name →
      ∀ id ∈ h.identifiers, foldName id ≠ foldName recursiveHeading.name := by
    intro h name b hh _ _
    cases List.mem_singleton.mp hh
    decide
  cases hcode : compileTree (printsStep.withFunctions [.directive (stepHeading "n") .forward, stepBody,
      .definition recursiveHeading recursiveBlock]) with
  | ok code => exact ⟨code, rfl, (introductions_agree printsStep hbody hbefore hbetween hheadings code).mp hcode⟩
  | error e =>
    rw [hcode] at hsome
    cases hsome

/-- A parameter of an announced heading is declared with the body, where the name of a function that is
announced in between is taken. -/
theorem printsStep_parameter_taken :
    (∀ f ∈ [FunctionDecl.directive (stepHeading "f") .forward],
      foldName f.name ≠ foldName recursiveHeading.name) ∧
    (∀ f ∈ [stepBody], ∀ id ∈ f.identifiers, foldName id ≠ foldName recursiveHeading.name) ∧
    (compileTree (printsStep.withFunctions [.directive (stepHeading "f") .forward, stepBody,
      .definition recursiveHeading recursiveBlock])).toOption.isSome = true ∧
    compileTree (printsStep.withFunctions
      [.directive (stepHeading "f") .forward, .directive recursiveHeading .forward, stepBody,
        .definition recursiveHeading recursiveBlock]) = .error (.duplicate "f") := by
  refine ⟨by decide, by decide, by decide +kernel, ?_⟩
  decide +kernel

end PascalStack

import PascalStack.Proofs.Compiler.Slots
import PascalStack.Proofs.Storage.Quiet

/-!
# Reserved slots

Slots are reserved before it is known whether the variable can be declared, and they are not given back
when it cannot.  A log lists all stretches of slots that a compilation reserves, in order.

* `Storage`, `Holder`, `Reservation`   a stretch of slots and what it was reserved for;
* `Tiles`                 stretches one after the other, counted in a machine word;
* `Compiler.StorageGrows`     what a compilation with a log does to the storage;
* `Compile.Accounts`      a compilation reserves what its log says, whether it succeeds or not;
* `reserve_accounts`      the step that reserves and declares.
-/

namespace PascalStack

/-- What the slots of a variable are for: one value, or the elements between two bounds. -/
inductive Storage where
  | scalar (type : DataType)
  | array (low high : Int64) (element : DataType)
deriving DecidableEq

namespace Storage

def size : Storage → Nat
  | scalar _ => 1
  | array low high _ => (high.toInt - low.toInt + 1).toNat

def shape : Storage → Shape
  | scalar t => .scalar t
  | array low _ t => .array low t

end Storage

/-- What slots were reserved for.  A variable is `refused` when its name was taken; its slots stay
reserved. -/
inductive Holder where
  | named (owner : Option String) (name : String) (storage : Storage)
  | result (function : String)
  | refused (storage : Storage)
deriving DecidableEq

/-- The number of slots; a result has one. -/
def Holder.size : Holder → Nat
  | named _ _ storage => storage.size
  | result _ => 1
  | refused storage => storage.size

/-- The first of the reserved slots, and what they were reserved for. -/
structure Reservation where
  slot : Nat
  holder : Holder
deriving DecidableEq

namespace Reservation

def size (r : Reservation) : Nat := r.holder.size

def stop (r : Reservation) : Nat := r.slot + r.size

/-- The slots are those of a variable; names are the same in all letter cases. -/
def Holds (r : Reservation) (owner : Option String) (id : String) (v : Variable) : Prop :=
  ∃ owner' id' storage, r.holder = .named owner' id' storage ∧
    owner'.map foldName = owner.map foldName ∧ foldName id' = foldName id ∧
    v = ⟨r.slot, storage.shape⟩

end Reservation

def total : List Reservation → Nat
  | [] => 0
  | r :: log => r.size + total log

theorem total_append (log log' : List Reservation) : total (log ++ log') = total log + total log' := by
  induction log with
  | nil => exact (Nat.zero_add _).symm
  | cons r log ih => rw [List.cons_append, total, total, ih, Nat.add_assoc]

/-! ## stretches one after the other -/

/-- From slot `n` on the reservations follow each other up to slot `m`.  Slots are counted in a machine
word. -/
def Tiles : Nat → List Reservation → Nat → Prop
  | n, [], m => m = n
  | n, r :: log, m => r.slot = n ∧ Tiles ((n + r.size) % wordSize) log m

theorem Tiles.append {n m k : Nat} {log log' : List Reservation} (h : Tiles n log m)
    (h' : Tiles m log' k) : Tiles n (log ++ log') k := by
  induction log generalizing n with
  | nil =>
    cases h
    exact h'
  | cons r log ih => exact ⟨h.1, ih h.2⟩

/-- As long as there are words enough, no slot is counted twice. -/
theorem Tiles.stop {n m : Nat} {log : List Reservation} (h : Tiles n log m)
    (hlt : n + total log < wordSize) : m = n + total log := by
  induction log generalizing n with
  | nil => exact h
  | cons r log ih =>
    rw [total] at hlt ⊢
    have hrest := h.2
    rw [Nat.mod_eq_of_lt (by omega)] at hrest
    rw [ih hrest (by omega), Nat.add_assoc]

theorem Tiles.bounds {n m : Nat} {log : List Reservation} (h : Tiles n log m)
    (hlt : n + total log < wordSize) : ∀ r ∈ log, n ≤ r.slot ∧ r.stop ≤ m := by
  have hm := h.stop hlt
  induction log generalizing n with
  | nil => nofun
  | cons r log ih =>
    have hrest := h.2
    have hslot := h.1
    rw [total] at hlt hm
    rw [Nat.mod_eq_of_lt (by omega)] at hrest
    intro r' hr'
    rcases List.mem_cons.mp hr' with rfl | hr'
    · unfold Reservation.stop
      omega
    · have := ih hrest (by omega) (by omega) r' hr'
      omega

/-- Reservations have no slot in common. -/
theorem Tiles.pairwise {n m : Nat} {log : List Reservation} (h : Tiles n log m)
    (hlt : n + total log < wordSize) : log.Pairwise fun r r' => r.stop ≤ r'.slot := by
  induction log generalizing n with
  | nil => exact .nil
  | cons r log ih =>
    have hrest := h.2
    have hslot := h.1
    rw [total] at hlt
    rw [Nat.mod_eq_of_lt (by omega)] at hrest
    refine .cons (fun r' hr' => ?_) (ih hrest (by omega))
    have := (hrest.bounds (by omega) r' hr').1
    unfold Reservation.stop
    omega

/-! ## what a compilation reserves -/

/-- What a compilation with a log of reservations does to the storage: the reservations follow each
other, every new variable has one of them, no variable is lost or moved, and the result of a function that
was entered has one of them. -/
structure Compiler.StorageGrows (c : Compiler) (log : List Reservation) (d : Compiler) : Prop where
  entered : d.scopes.Entered
  tiles : Tiles c.scopes.nextSlot log d.scopes.nextSlot
  symbols : ∀ {owner id v}, d.scopes.declared? owner id = some v →
    c.scopes.declared? owner id = some v ∨ ∃ r ∈ log, r.Holds owner id v
  kept : ∀ {owner id v}, c.scopes.declared? owner id = some v → d.scopes.declared? owner id = some v
  declared : ∀ {slot owner id storage}, ⟨slot, .named owner id storage⟩ ∈ log →
    d.scopes.declared? owner id = some ⟨slot, storage.shape⟩
  activation : ∀ {a}, d.activation = some a →
    c.activation = some a ∨ ⟨a.slot, .result a.name⟩ ∈ log

namespace Compiler
variable {c d e : Compiler} {log log' : List Reservation}

theorem SameStorage.declared? (h : c.SameStorage d) (owner : Option String) (id : String) :
    d.scopes.declared? owner id = c.scopes.declared? owner id := by
  cases owner with
  | none => exact congrArg (Table.find? · id) h.globals
  | some label =>
    simp only [Scopes.declared?, h.locals]

theorem SameStorage.grows (h : c.SameStorage d) (he : c.scopes.Entered) : c.StorageGrows [] d where
  entered := by
    intro g hg
    rw [h.current] at hg
    rw [h.locals]
    exact he g hg
  tiles := h.nextSlot
  symbols hv := .inl (h.declared? _ _ ▸ hv)
  kept hv := (h.declared? _ _).trans hv
  declared := nofun
  activation ha := .inl (h.activation ▸ ha)

theorem StorageGrows.trans (h : c.StorageGrows log d) (h' : d.StorageGrows log' e) : c.StorageGrows (log ++ log') e where
  entered := h'.entered
  tiles := h.tiles.append h'.tiles
  symbols hv := by
    rcases h'.symbols hv with hv | ⟨r, hr, hof⟩
    · rcases h.symbols hv with hv | ⟨r, hr, hof⟩
      · exact .inl hv
      · exact .inr ⟨r, List.mem_append_left _ hr, hof⟩
    · exact .inr ⟨r, List.mem_append_right _ hr, hof⟩
  kept hv := h'.kept (h.kept hv)
  declared hr := by
    rcases List.mem_append.mp hr with hr | hr
    · exact h'.kept (h.declared hr)
    · exact h'.declared hr
  activation ha := by
    rcases h'.activation ha with ha | hr
    · exact (h.activation ha).imp id (List.mem_append_left _)
    · exact .inr (List.mem_append_right _ hr)

end Compiler

/-- The reservations of a compilation, from the state in which it starts. -/
abbrev Log := Compiler → List Reservation

namespace Log
variable {α : Type}

def nothing : Log := fun _ => []

/-- A log for what comes after `x`; if `x` fails, nothing does. -/
def after (x : Compile α) (L : α → Log) : Log := fun c =>
  match x c with
  | .ok a d => L a d
  | .error _ _ => []

/-- The log of `x`, then a log for what comes after it. -/
def andThen (L : Log) (x : Compile α) (M : α → Log) : Log := fun c => L c ++ after x M c

end Log

namespace Compile
variable {α β : Type}

/-- A compilation reserves what the log says, whether it succeeds or not. -/
def Accounts (x : Compile α) (L : Log) : Prop :=
  ∀ c : Compiler, c.scopes.Entered → c.StorageGrows (L c) (x.stateAfter c)

theorem Quiet.accounts {x : Compile α} (h : Quiet x) : Accounts x .nothing :=
  fun c he => (h c).grows he

namespace Accounts
variable {x : Compile α} {f : α → Compile β} {L : Log} {M : α → Log}

theorem bind (hx : Accounts x L) (hf : ∀ a, Accounts (f a) (M a)) : Accounts (x >>= f) (L.andThen x M) := by
  intro c he
  have hc := hx c he
  unfold Log.andThen Log.after
  cases h : x c with
  | ok a d =>
    rw [stateAfter_of_ok h] at hc
    rw [stateAfter_bind_of_ok h]
    exact hc.trans (hf a d hc.entered)
  | error e d =>
    rw [stateAfter_of_error h] at hc
    rw [stateAfter_bind_of_error h, List.append_nil]
    exact hc

theorem quiet_bind (hx : Quiet x) (hf : ∀ a, Accounts (f a) (M a)) : Accounts (x >>= f) (.after x M) :=
  bind hx.accounts hf

theorem bind_nothing (hx : Accounts x L) (hf : ∀ a, Accounts (f a) .nothing) : Accounts (x >>= f) L := by
  have h := bind hx hf
  intro c he
  have hc := h c he
  have hnothing : Log.after x (fun _ => .nothing) c = [] := by
    unfold Log.after
    split <;> rfl
  unfold Log.andThen at hc
  rwa [hnothing, List.append_nil] at hc

theorem bind_quiet (hx : Accounts x L) (hf : ∀ a, Quiet (f a)) : Accounts (x >>= f) L :=
  bind_nothing hx fun a => (hf a).accounts

end Accounts

/-! ## the step that reserves and declares -/

/-- Reserves the slots of a variable and declares it. -/
def reserve (name : String) (storage : Storage) : Compile Nat := do
  let slot ← allocate storage.size
  declare name ⟨slot, storage.shape⟩
  return slot

/-- The slots are reserved in any case; whose they are depends on whether the name was free. -/
def reserveLog (name : String) (storage : Storage) : Log := fun c =>
  [⟨c.scopes.nextSlot,
    if c.scopes.functions.contains name || c.scopes.currentTable.contains name then .refused storage
    else .named c.scopes.current name storage⟩]

end Compile

namespace Scopes
variable {s t : Scopes} {name id : String} {v w : Variable} {owner : Option String}

/-- A declared variable is found. -/
theorem declared?_declare_self (he : s.Entered) (h : s.declare name v = .ok t) :
    t.declared? s.current name = some v := by
  obtain ⟨_, _, ⟨g, hg, rfl⟩ | ⟨hc, rfl⟩⟩ := declare_eq_ok.mp h
  · obtain ⟨table, ht⟩ := he g hg
    rw [hg]
    simp only [declared?, Table.find?_modify, if_true, ht, Option.map_some, Option.bind_some,
      Table.find?_insert]
  · rw [hc]
    simp only [declared?, Table.find?_insert, if_true]

/-- A declaration leaves the variables that were there; its own name was not among them. -/
theorem declared?_declare_of_some (h : s.declare name v = .ok t) (hw : s.declared? owner id = some w) :
    t.declared? owner id = some w := by
  obtain ⟨_, hnew, ⟨g, hg, rfl⟩ | ⟨hc, rfl⟩⟩ := declare_eq_ok.mp h
  · cases owner with
    | none => exact hw
    | some label =>
      simp only [declared?, Table.find?_modify] at hw ⊢
      split
      · rename_i hlabel
        obtain ⟨table, ht, hw⟩ := Option.bind_eq_some_iff.mp hw
        have hne : foldName id ≠ foldName name := by
          intro hid
          have hcur : s.currentTable = table := by
            unfold currentTable localTable
            rw [hg, Option.bind_some, ← Table.find?_congr _ hlabel, ht]
            rfl
          rw [hcur, ← Table.find?_congr _ hid, hw] at hnew
          cases hnew
        simp only [ht, Option.map_some, Option.bind_some, Table.find?_insert, if_neg hne, hw]
      · exact hw
  · cases owner with
    | none =>
      have hne : foldName id ≠ foldName name := by
        intro hid
        have hcur : s.currentTable = s.globals := by
          unfold currentTable
          rw [hc]
        rw [hcur, ← Table.find?_congr _ hid] at hnew
        cases hw.symm.trans hnew
      simp only [declared?, Table.find?_insert, if_neg hne]
      exact hw
    | some label => exact hw

theorem declare_of_taken (h : (s.functions.contains name || s.currentTable.contains name) = true) :
    s.declare name v = .error (.duplicate name) := by
  unfold declare
  rw [if_pos h]

theorem declare_of_free (h : (s.functions.contains name || s.currentTable.contains name) = false) :
    ∃ t, s.declare name v = .ok t := by
  unfold declare
  rw [h]
  cases s.current with
  | none => exact ⟨_, rfl⟩
  | some g => exact ⟨_, rfl⟩

end Scopes

/-- Slots of a variable that is refused. -/
theorem Compiler.grows_refused {c : Compiler} (he : c.scopes.Entered) (storage : Storage) :
    c.StorageGrows [⟨c.scopes.nextSlot, .refused storage⟩]
      { c with scopes := (c.scopes.allocate storage.size).2 } where
  entered := he
  tiles := ⟨rfl, rfl⟩
  symbols {owner _ _} hv := .inl (by cases owner <;> exact hv)
  kept {owner _ _} hv := by cases owner <;> exact hv
  declared hr := by
    have h := List.mem_singleton.mp hr
    cases h
  activation ha := .inl ha

/-- Slots of a variable that is declared. -/
theorem Compiler.grows_named {c : Compiler} {s : Scopes} {name : String} {storage : Storage}
    (he : c.scopes.Entered)
    (h : (c.scopes.allocate storage.size).2.declare name ⟨c.scopes.nextSlot, storage.shape⟩ = .ok s) :
    c.StorageGrows [⟨c.scopes.nextSlot, .named c.scopes.current name storage⟩] { c with scopes := s } where
  entered := by
    have he' : (c.scopes.allocate storage.size).2.Entered := he
    exact Scopes.declare_entered he' h
  tiles := ⟨rfl, Scopes.declare_nextSlot h⟩
  symbols {owner id v} hv := by
    rcases Scopes.declared?_declare h hv with hv | ⟨howner, hid, rfl⟩
    · exact .inl (by cases owner <;> exact hv)
    · exact .inr ⟨_, List.mem_singleton_self _, _, _, storage, rfl, howner, hid, rfl⟩
  kept {owner id v} hv := Scopes.declared?_declare_of_some h (by cases owner <;> exact hv)
  declared hr := by
    cases List.mem_singleton.mp hr
    have he' : (c.scopes.allocate storage.size).2.Entered := he
    have hself := Scopes.declared?_declare_self he' h
    exact hself
  activation ha := .inl ha

namespace Compile

theorem declare_of_error {c : Compiler} {name : String} {v : Variable} {e : SemanticError}
    (h : c.scopes.declare name v = .error e) : declare name v c = .error e c := by
  have hs : scopes c = .ok c.scopes c := rfl
  unfold declare
  rw [bind_of_ok hs, h]
  rfl

theorem reserve_accounts (name : String) (storage : Storage) :
    Accounts (reserve name storage) (reserveLog name storage) := by
  intro c he
  let d : Compiler := { c with scopes := (c.scopes.allocate storage.size).2 }
  have halloc : allocate storage.size c = .ok c.scopes.nextSlot d := rfl
  have hstate : (reserve name storage).stateAfter c = _ := stateAfter_bind_of_ok halloc
  rw [hstate]
  unfold reserveLog
  cases htaken : c.scopes.functions.contains name || c.scopes.currentTable.contains name with
  | true =>
    have hd : declare name ⟨c.scopes.nextSlot, storage.shape⟩ d = .error (.duplicate name) d :=
      declare_of_error (Scopes.declare_of_taken htaken)
    rw [if_pos rfl, stateAfter_bind_of_error hd]
    exact Compiler.grows_refused he storage
  | false =>
    obtain ⟨s, hs⟩ : ∃ s, d.scopes.declare name ⟨c.scopes.nextSlot, storage.shape⟩ = .ok s :=
      Scopes.declare_of_free htaken
    have hd : declare name ⟨c.scopes.nextSlot, storage.shape⟩ d = .ok () { d with scopes := s } :=
      declare_eq_ok.mpr ⟨s, hs, rfl⟩
    rw [if_neg Bool.false_ne_true, stateAfter_bind_of_ok hd]
    exact Compiler.grows_named he hs

/-- The step as it stands in declarations. -/
theorem reserve_bind {β : Type} (name : String) (storage : Storage) (f : Nat → Compile β) :
    reserve name storage >>= f =
      allocate storage.size >>= fun slot => declare name ⟨slot, storage.shape⟩ >>= fun _ => f slot := by
  unfold reserve
  simp only [bind_assoc, pure_bind]

end Compile
end PascalStack

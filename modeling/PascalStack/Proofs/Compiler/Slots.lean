import Mathlib.Data.List.Perm.Subperm
import PascalStack.Proofs.Compiler.Declarations

/-!
# Slots of variables

* `Allocates.slot_lt`        slots are words;
* `Allocates.declared?`      every variable has its region;
* `Allocates.consecutive`    regions lie one after the other, as long as there are enough words for them.
-/

namespace PascalStack

structure Region.Of (owner : Option String) (id : String) (v : Variable) (g : Region) : Prop where
  owner : g.owner.map foldName = owner.map foldName
  name : foldName g.name = foldName id
  slot : g.slot = v.slot
  shape : g.shape = v.shape

namespace Scopes
variable {s t u : Scopes} {log log' : List Region} {id label : String} {v : Variable}

theorem Declares.allocates (h : Declares s log t) : Allocates s log t := by
  induction h with
  | refl => exact .refl _
  | step name size shape hd _ ih => exact .declare name size shape hd ih

/-- The regions of declarations belong to the function at hand. -/
theorem Declares.owner (h : Declares s log t) : ∀ g ∈ log, g.owner = s.current := by
  induction h with
  | refl => nofun
  | step name size shape hd _ ih =>
    intro g hg
    rcases List.mem_cons.mp hg with rfl | hg
    · rfl
    · exact (ih g hg).trans ((declare_current hd).trans rfl)

/-! ## slots are words -/

theorem allocate_nextSlot_lt (s : Scopes) (size : Nat) : (s.allocate size).2.nextSlot < wordSize :=
  Nat.mod_lt _ (by decide)

theorem Allocates.slot_lt (h : Allocates s log t) (hs : s.nextSlot < wordSize) :
    ∀ g ∈ log, g.slot < wordSize := by
  induction h with
  | refl => nofun
  | same hsame _ ih =>
    rw [← hsame.nextSlot] at hs
    exact ih hs
  | enter label result _ ih =>
    intro g hg
    rcases List.mem_cons.mp hg with rfl | hg
    · exact hs
    · exact ih (allocate_nextSlot_lt _ _) g hg
  | @declare s _ _ _ name size shape hd _ ih =>
    intro g hg
    rcases List.mem_cons.mp hg with rfl | hg
    · exact hs
    · refine ih ?_ g hg
      rw [declare_nextSlot hd]
      exact allocate_nextSlot_lt _ _

/-! ## every variable has its region -/

/-- A variable of a function, or a global one. -/
def declared? (s : Scopes) : Option String → String → Option Variable
  | none, id => s.globals.find? id
  | some label, id => (s.locals.find? label).bind fun table => table.find? id

theorem resolve?_declared? (h : s.resolve? id = some v) :
    s.declared? s.current id = some v ∨ s.declared? none id = some v := by
  unfold resolve? localTable at h
  cases hc : s.current with
  | none =>
    simp only [hc, Option.bind_none, Option.getD_none, Table.find?_empty] at h
    exact .inr h
  | some label =>
    cases ht : s.locals.find? label with
    | none =>
      simp only [hc, ht, Option.bind_some, Option.getD_none, Table.find?_empty] at h
      exact .inr h
    | some table =>
      simp only [hc, ht, Option.bind_some, Option.getD_some] at h
      cases hv : table.find? id with
      | none =>
        simp only [hv] at h
        exact .inr h
      | some w =>
        simp only [hv] at h
        cases h
        exact .inl (by simp only [declared?, ht, Option.bind_some, hv])

theorem declared?_of_currentTable (h : s.currentTable.find? id = some v) :
    s.declared? s.current id = some v := by
  cases hc : s.current with
  | none =>
    rw [currentTable_none hc] at h
    exact h
  | some label =>
    unfold currentTable localTable at h
    simp only [hc, Option.bind_some] at h
    cases ht : s.locals.find? label with
    | none =>
      rw [ht, Option.getD_none, Table.find?_empty] at h
      cases h
    | some table =>
      rw [ht, Option.getD_some] at h
      rw [declared?, ht, Option.bind_some, h]

theorem declared?_declare {name : String} {w : Variable} {owner : Option String}
    (h : s.declare name w = .ok t) (hv : t.declared? owner id = some v) :
    s.declared? owner id = some v ∨
      (s.current.map foldName = owner.map foldName ∧ foldName name = foldName id ∧ v = w) := by
  obtain ⟨_, _, ⟨g, hg, rfl⟩ | ⟨hc, rfl⟩⟩ := declare_eq_ok.mp h
  · cases owner with
    | none => exact .inl hv
    | some label =>
      simp only [declared?, Table.find?_modify] at hv
      split at hv
      · rename_i hlabel
        rw [Option.bind_map] at hv
        obtain ⟨table, ht, hv⟩ := Option.bind_eq_some_iff.mp hv
        simp only [Function.comp_apply, Table.find?_insert] at hv
        split at hv
        · rename_i hid
          cases hv
          refine .inr ⟨?_, hid.symm, rfl⟩
          rw [hg, Option.map_some, Option.map_some, hlabel]
        · refine .inl ?_
          simp only [declared?, ht, Option.bind_some, hv]
      · exact .inl hv
  · cases owner with
    | none =>
      simp only [declared?, Table.find?_insert] at hv
      split at hv
      · rename_i hid
        cases hv
        exact .inr ⟨by rw [hc], hid.symm, rfl⟩
      · exact .inl hv
    | some label => exact .inl hv

theorem declared?_enter {owner : Option String} (hv : (s.enter label).declared? owner id = some v) :
    s.declared? owner id = some v := by
  cases owner with
  | none => exact hv
  | some other =>
    simp only [declared?, enter] at hv
    split at hv
    · exact hv
    · rw [Table.find?_insert] at hv
      split at hv
      · simp only [Option.bind_some, Table.find?_empty] at hv
        cases hv
      · exact hv

/-- A variable stays where it is when another one is declared. -/
theorem declare_declared? {name : String} {w : Variable} {owner : Option String}
    (h : s.declare name w = .ok t) (hv : s.declared? owner id = some v) : t.declared? owner id = some v := by
  obtain ⟨_, hnew, ⟨g, hg, rfl⟩ | ⟨hc, rfl⟩⟩ := declare_eq_ok.mp h
  · cases owner with
    | none => exact hv
    | some label =>
      obtain ⟨table, ht, hv⟩ := Option.bind_eq_some_iff.mp hv
      simp only [declared?, Table.find?_modify]
      split
      · rename_i hlabel
        have htable : s.currentTable = table := currentTable_some hg (by rw [← Table.find?_congr _ hlabel, ht])
        rw [htable] at hnew
        rw [ht, Option.map_some, Option.bind_some, Table.find?_insert, if_neg, hv]
        intro hid
        rw [Table.find?_congr _ hid, hnew] at hv
        cases hv
      · rw [ht, Option.bind_some, hv]
  · cases owner with
    | some label => exact hv
    | none =>
      rw [currentTable_none hc] at hnew
      simp only [declared?, Table.find?_insert]
      rw [if_neg]
      · exact hv
      · intro hid
        have hv : s.globals.find? id = some v := hv
        rw [Table.find?_congr _ hid, hnew] at hv
        cases hv

theorem enter_declared? {owner : Option String} (hv : s.declared? owner id = some v) :
    (s.enter label).declared? owner id = some v := by
  cases owner with
  | none => exact hv
  | some other =>
    obtain ⟨table, ht, hv⟩ := Option.bind_eq_some_iff.mp hv
    simp only [declared?, enter]
    split
    · rw [ht, Option.bind_some, hv]
    · rename_i hnone
      rw [Table.find?_insert, if_neg, ht, Option.bind_some, hv]
      intro hname
      rw [Table.find?_congr _ hname] at ht
      exact hnone (Table.contains_eq_true.mpr ⟨table, ht⟩)

/-- No variable is lost. -/
theorem Allocates.keeps (h : Allocates s log t) {owner : Option String} (hv : s.declared? owner id = some v) :
    t.declared? owner id = some v := by
  induction h with
  | refl => exact hv
  | same hsame _ ih =>
    refine ih ?_
    cases owner <;> simpa only [Scopes.declared?, hsame.globals, hsame.locals] using hv
  | @enter s _ _ label result _ ih =>
    have hentered : (s.enter label).declared? owner id = some v := enter_declared? hv
    refine ih ?_
    cases owner <;> exact hentered
  | @declare s _ _ _ name size shape hd _ ih =>
    have hv' : (s.allocate size).2.declared? owner id = some v := by cases owner <;> exact hv
    exact ih (declare_declared? hd hv')

/-- Every variable was there before or has its region. -/
theorem Allocates.declared? (h : Allocates s log t) {owner : Option String}
    (hv : t.declared? owner id = some v) :
    s.declared? owner id = some v ∨ ∃ g ∈ log, Region.Of owner id v g := by
  induction h with
  | refl => exact .inl hv
  | same hsame _ ih =>
    rcases ih hv with hv | hg
    · refine .inl ?_
      cases owner <;> simpa only [Scopes.declared?, hsame.globals, hsame.locals] using hv
    · exact .inr hg
  | enter label result _ ih =>
    rcases ih hv with hv | ⟨g, hg, hof⟩
    · exact .inl (declared?_enter hv)
    · exact .inr ⟨g, List.mem_cons_of_mem _ hg, hof⟩
  | @declare s _ _ _ name size shape hd _ ih =>
    rcases ih hv with hv | ⟨g, hg, hof⟩
    · rcases declared?_declare hd hv with hv | ⟨howner, hname, rfl⟩
      · exact .inl hv
      · exact .inr ⟨_, List.mem_cons_self .., howner, hname, rfl, rfl⟩
    · exact .inr ⟨g, List.mem_cons_of_mem _ hg, hof⟩

end Scopes

/-! ## regions lie one after the other -/

/-- The first slots that are all named are at most `bound`. -/
def Names (names : List Nat) (bound : Nat) : Prop := ∀ k, (∀ n < k, n ∈ names) → k ≤ bound

/-- A list of `k` names holds no more than `k` slots. -/
theorem names_length (names : List Nat) : Names names names.length := by
  intro k hk
  have hsub : List.range k ⊆ names := fun n hn => hk n (List.mem_range.mp hn)
  have hle := (List.subperm_of_subset List.nodup_range hsub).length_le
  rwa [List.length_range] at hle

def Consecutive : Nat → List Region → Prop
  | _, [] => True
  | n, g :: log => g.slot = n ∧ Consecutive (n + g.size) log

theorem Consecutive.le {n : Nat} {log : List Region} (h : Consecutive n log) :
    ∀ g ∈ log, n ≤ g.slot := by
  induction log generalizing n with
  | nil => nofun
  | cons g log ih =>
    intro g' hg'
    rcases List.mem_cons.mp hg' with rfl | hg'
    · exact Nat.le_of_eq h.1.symm
    · exact Nat.le_trans (Nat.le_add_right n g.size) (ih h.2 g' hg')

def Region.Disjoint (g g' : Region) : Prop := g.slot + g.size ≤ g'.slot ∨ g'.slot + g'.size ≤ g.slot

theorem Consecutive.disjoint {n : Nat} {log : List Region} (h : Consecutive n log) {g g' : Region}
    (hg : g ∈ log) (hg' : g' ∈ log) (hne : g ≠ g') : g.Disjoint g' := by
  induction log generalizing n with
  | nil => cases hg
  | cons k log ih =>
    have hle := h.2.le
    rcases List.mem_cons.mp hg with rfl | hgl
    · rcases List.mem_cons.mp hg' with rfl | hgl'
      · exact absurd rfl hne
      · exact .inl (h.1 ▸ hle g' hgl')
    · rcases List.mem_cons.mp hg' with rfl | hgl'
      · exact .inr (h.1 ▸ hle g hgl)
      · exact ih h.2 hgl hgl'

/-- Slots are counted without a carry as long as there are enough words for those that are named. -/
theorem Scopes.Allocates.consecutive {s t : Scopes} {log : List Region} {names : List Nat} {bound : Nat}
    (h : Allocates s log t) (hnamed : ∀ g ∈ log, ∀ i < g.size, g.slot + i ∈ names)
    (hnames : Names names bound) (hbound : bound < wordSize) (hs : ∀ n < s.nextSlot, n ∈ names) :
    Consecutive s.nextSlot log := by
  -- the slots of the next region are named too, so they are words
  have next : ∀ (first size : Nat), (∀ n < first, n ∈ names) → (∀ i < size, first + i ∈ names) →
      (∀ n < first + size, n ∈ names) ∧ (first + size) % wordSize = first + size := by
    intro first size hfirst hsize
    have hall : ∀ n < first + size, n ∈ names := by
      intro n hn
      by_cases hlt : n < first
      · exact hfirst n hlt
      · have hi := hsize (n - first) (by omega)
        rwa [Nat.add_sub_cancel' (Nat.not_lt.mp hlt)] at hi
    exact ⟨hall, Nat.mod_eq_of_lt (Nat.lt_of_le_of_lt (hnames _ hall) hbound)⟩
  induction h with
  | refl => trivial
  | same hsame _ ih =>
    rw [← hsame.nextSlot] at hs ⊢
    exact ih hnamed hs
  | @enter s _ _ label result _ ih =>
    obtain ⟨hall, hmod⟩ := next s.nextSlot 1 hs (hnamed _ (List.mem_cons_self ..))
    have hslot : ((s.enter label).allocate 1).2.nextSlot = s.nextSlot + 1 := hmod
    have hrest := ih fun g hg => hnamed g (List.mem_cons_of_mem _ hg)
    rw [hslot] at hrest
    exact ⟨rfl, hrest hall⟩
  | @declare s t _ _ name size shape hd _ ih =>
    obtain ⟨hall, hmod⟩ := next s.nextSlot size hs (hnamed _ (List.mem_cons_self ..))
    have hslot : t.nextSlot = s.nextSlot + size := (declare_nextSlot hd).trans hmod
    have hrest := ih fun g hg => hnamed g (List.mem_cons_of_mem _ hg)
    rw [hslot] at hrest
    exact ⟨rfl, hrest hall⟩

end PascalStack

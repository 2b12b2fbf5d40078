import PascalStack.Proofs.Machine.Steps
import PascalStack.Compiler.State

/-!
# Lines of code in their places

* `Op.fits`        operands that can be read back from their text;
* `Op.resolve?`    an instruction with the position of its target;
* `Placed`         lines of code stand between two positions;
* `placed_append`, `Placed.uncons`, ...   how to take such lines apart.
-/

namespace PascalStack

/-- Numbers of slots and values are words, and no more zeros are pushed than there are slots. -/
def Op.fits : Op String → Bool
  | .pushg (some slot) | .storeg (some slot) => slot < wordSize
  | .pushn count => count ≤ maxGlobals
  | .load offset => offset < wordSize
  | .pop count | .dup count => count < wordSize
  | _ => true

/-- An instruction with the position of its target. -/
def Op.resolve? (targets : String → Option Nat) : Op String → Option (Op Nat)
  | .pushi n => some (.pushi n)
  | .pushf x => some (.pushf x)
  | .pushs s => some (.pushs s)
  | .pushn count => some (.pushn count)
  | .pushg slot => some (.pushg slot)
  | .pusha label => (targets label).map .pusha
  | .storeg slot => some (.storeg slot)
  | .load offset => some (.load offset)
  | .pop count => some (.pop count)
  | .dup count => some (.dup count)
  | .jump label => (targets label).map .jump
  | .jz label => (targets label).map .jz
  | .basic b => some (.basic b)

section
variable (code : Code) (targets : String → Option Nat)

/-- Lines of code stand between two positions; labels take no place. -/
def Placed : (p : Nat) → List Line → (q : Nat) → Prop
  | p, [], q => p = q
  | p, .label name :: rest, q => targets name = some p ∧ Placed p rest q
  | p, .op op :: rest, q =>
    (op.fits = true → ∃ o, op.resolve? targets = some o ∧ code[p]? = some (.ok o)) ∧
      Placed (p + 1) rest q

end

section
variable {code : Code} {targets : String → Option Nat} {p q : Nat} {op : Op String} {a b : List Line}
  {ops : List (Op String)}

theorem placed_append : Placed code targets p (a ++ b) q ↔
    ∃ r, Placed code targets p a r ∧ Placed code targets r b q := by
  induction a generalizing p with
  | nil => simp only [List.nil_append, Placed, exists_eq_left']
  | cons line rest ih =>
    cases line with
    | label name =>
      simp only [List.cons_append, Placed, ih, and_assoc]
      exact ⟨fun ⟨ht, r, h⟩ => ⟨r, ht, h⟩, fun ⟨r, ht, h⟩ => ⟨ht, r, h⟩⟩
    | op o =>
      simp only [List.cons_append, Placed, ih, and_assoc]
      exact ⟨fun ⟨ht, r, h⟩ => ⟨r, ht, h⟩, fun ⟨r, ht, h⟩ => ⟨ht, r, h⟩⟩

theorem Placed.label {name : String} (h : Placed code targets p [.label name] q) :
    targets name = some p ∧ q = p :=
  ⟨h.1, Eq.symm h.2⟩

theorem Placed.uncons (h : Placed code targets p (emit (op :: ops)) q) :
    ∃ m, Placed code targets p (emit [op]) m ∧ Placed code targets m (emit ops) q :=
  ⟨p + 1, ⟨h.1, rfl⟩, h.2⟩

theorem Placed.single (h : Placed code targets p (emit [op]) q) :
    (op.fits = true → ∃ o, op.resolve? targets = some o ∧ code[p]? = some (.ok o)) ∧ q = p + 1 :=
  ⟨h.1, Eq.symm h.2⟩

theorem Placed.instruction {o : Op Nat} (h : Placed code targets p (emit [op]) q) (hfits : op.fits = true)
    (ho : op.resolve? targets = some o) : code[p]? = some (.ok o) ∧ q = p + 1 := by
  obtain ⟨hop, rfl⟩ := h.single
  obtain ⟨o', ho', hcode⟩ := hop hfits
  cases ho.symm.trans ho'
  exact ⟨hcode, rfl⟩

theorem Placed.basic {b : Basic} (h : Placed code targets p (emitBasic [b]) q) :
    code[p]? = some (.ok (.basic b)) ∧ q = p + 1 :=
  Placed.instruction h rfl rfl

end

end PascalStack

import PascalStack.Proofs.Simulation.Contained
import PascalStack.Proofs.Soundness.Functions

/-!
# Expressions that a run comes to

A run that keeps to types may come to the code of an expression anywhere.  What that code reads has been
written by then, because the run would have read it too.

* `Path.next`          the first instruction of a path;
* `Path.supplies`      what straight code on a path reads has been written;
* `Evaluates`          a run goes through the code of an expression;
* `Running.evaluates`  it leaves a value of the type that is inferred for the expression.
-/

namespace PascalStack

section
variable {W : Setting} {J F R R' : Nat → Prop} {Γ Γ' : List Kind} {p q : Nat} {o : Op Nat}

/-! ## the first instruction of a path -/

theorem Op.Types.ready_eq (h : o.Types W p R Γ R' Γ') (ho : ∀ n, o ≠ .storeg (some n)) : R' = R := by
  cases h with
  | store _ _ => exact absurd rfl (ho _)
  | _ => rfl

theorem Op.Types.loads {n : Nat} (h : (Op.pushg (some n)).Types W p R Γ R' Γ') : R n ∨ W.fits n .zero := by
  cases h with
  | load _ hR _ => exact hR
  | push hu _ => cases hu

theorem Op.Types.not_call : ¬ (Op.basic .call).Types W p R Γ R' Γ' := by
  intro h
  cases h with
  | push hu _ => cases hu
  | unary hb _ => cases hb
  | binary hb _ => cases hb
  | write hb _ => cases hb

/-- What a path asks of an instruction that is neither a store nor a jump. -/
theorem Path.next (h : Path W J F p R Γ q R' Γ') (hpq : p ≠ q) (hop : W.code[p]? = some (.ok o))
    (hstore : ∀ n, o ≠ .storeg (some n)) (hjump : ∀ l, o ≠ .jump l ∧ o ≠ .jz l) :
    ∃ R₁ Γ₁, Path W J F (p + 1) R₁ Γ₁ q R' Γ' ∧ (∀ n, R₁ n → R n) ∧
      (∀ n, o = .pushg (some n) → R n ∨ W.fits n .zero) ∧ (o = .basic .call → ∀ n, W.globals n → R n) := by
  induction h with
  | refl => exact absurd rfl hpq
  | weaken hR _ ih =>
    obtain ⟨R₁, Γ₁, hpath, hR₁, hload, hcall⟩ := ih hpq hop
    exact ⟨R₁, Γ₁, hpath, fun n hn => hR n (hR₁ n hn), fun n ho => (hload n ho).imp (hR n) id,
      fun ho n hn => hR n (hcall ho n hn)⟩
  | op hop' htypes hrest _ =>
    rw [hop'] at hop
    cases hop
    have hR := htypes.ready_eq hstore
    refine ⟨_, _, hrest, fun n hn => hR ▸ hn, fun n ho => ?_, fun ho => ?_⟩
    · subst ho
      exact htypes.loads
    · subst ho
      exact absurd htypes Op.Types.not_call
  | jump hop' _ _ =>
    rw [hop'] at hop
    cases hop
    exact absurd rfl (hjump _).1
  | branch hop' _ _ _ _ =>
    rw [hop'] at hop
    cases hop
    exact absurd rfl (hjump _).2
  | call hop' _ hglobals hrest _ =>
    rw [hop'] at hop
    cases hop
    exact ⟨_, _, hrest, fun _ hn => hn, nofun, fun _ => hglobals⟩

/-- Without jumps a path only goes forward. -/
theorem Path.le (h : Path W J F p R Γ q R' Γ') (hJ : ∀ l, ¬ J l) : p ≤ q := by
  induction h with
  | refl => exact Nat.le_refl _
  | weaken _ _ ih => exact ih
  | op _ _ _ ih => exact Nat.le_of_succ_le ih
  | jump _ hl _ => exact absurd hl (hJ _)
  | branch _ hl _ _ _ => exact absurd hl (hJ _)
  | call _ _ _ _ ih => exact Nat.le_of_succ_le ih

theorem Path.kinds_eq (h : Path W J F p R Γ q R' Γ') (hJ : ∀ l, ¬ J l) (hpq : q ≤ p) : Γ' = Γ := by
  induction h with
  | refl => rfl
  | weaken _ _ ih => exact ih hpq
  | op _ _ hrest _ => exact absurd (Nat.le_trans (hrest.le hJ) hpq) (Nat.not_succ_le_self _)
  | jump _ hl _ => exact absurd hl (hJ _)
  | branch _ hl _ _ _ => exact absurd hl (hJ _)
  | call _ _ _ hrest _ => exact absurd (Nat.le_trans (hrest.le hJ) hpq) (Nat.not_succ_le_self _)

end

/-! ## straight code on a path -/

/-- Instructions of straight code, with their targets. -/
theorem Op.Contained.resolved {targets : String → Option Nat} {o : Op String} {o' : Op Nat}
    (h : o.Contained (fun _ => False) fun _ => False) (ho : o.resolve? targets = some o') :
    (∀ n, o' ≠ .storeg (some n)) ∧ (∀ l, o' ≠ .jump l ∧ o' ≠ .jz l) ∧
      (∀ b, o' = .basic b → o = .basic b ∧ b.isTransfer = false) ∧
      ∀ n, o = .pushg (some n) → o' = .pushg (some n) := by
  obtain ⟨_, h⟩ := h
  cases o with
  | storeg slot =>
    obtain ⟨n, _, hn⟩ := h
    exact hn.elim
  | jump label | jz label | pusha label => exact h.elim
  | basic b =>
    cases ho
    refine ⟨nofun, fun l => ⟨nofun, nofun⟩, fun b' hb => ?_, nofun⟩
    cases hb
    exact ⟨rfl, h⟩
  | pushg slot =>
    cases ho
    refine ⟨nofun, fun l => ⟨nofun, nofun⟩, nofun, fun n hn => ?_⟩
    cases hn
    rfl
  | _ =>
    cases ho
    exact ⟨nofun, fun l => ⟨nofun, nofun⟩, nofun, nofun⟩

/-- The instruction that ends a piece of code. -/
def Setting.EndsAt (W : Setting) (q : Nat) : Prop :=
  W.code[q]? = some (.ok (.basic .ret)) ∨ W.code[q]? = some (.ok (.basic .stop))

theorem Setting.EndsAt.transfer {W : Setting} {q : Nat} {o : Op Nat} (h : W.EndsAt q)
    (hop : W.code[q]? = some (.ok o)) : ∃ b, o = .basic b ∧ b.isTransfer = true ∧ b ≠ .call := by
  rcases h with h | h
  · cases hop.symm.trans h
    exact ⟨.ret, rfl, rfl, nofun⟩
  · cases hop.symm.trans h
    exact ⟨.stop, rfl, rfl, nofun⟩

/-- **What straight code on a path reads has been written.** -/
theorem Path.supplies {W : Setting} {targets : String → Option Nat} {T : String → Prop} {S : Scopes}
    {J F R R' : Nat → Prop} {Γ Γ' : List Kind} {p q b : Nat} {lines : List Line}
    (hlines : Contained T (fun _ => False) (fun _ => False) lines) (h : Path W J F p R Γ q R' Γ')
    (hend : W.EndsAt q) (hp : Placed W.code targets p lines b) : W.Supplies R S lines := by
  induction hlines generalizing p R Γ with
  | nil => exact ⟨nofun, nofun⟩
  | label _ ih =>
    have hrest := ih h hp.2
    refine ⟨fun hr hv hmem => hrest.slot hr hv ?_, fun hmem => hrest.call ?_⟩
    · exact (List.mem_cons.mp hmem).resolve_left nofun
    · exact (List.mem_cons.mp hmem).resolve_left nofun
  | @op o rest ho _ ih =>
    obtain ⟨o', ho', hcode⟩ := hp.1 ho.1
    obtain ⟨hstore, hjump, hbasic, hload⟩ := ho.resolved ho'
    have hpq : p ≠ q := by
      rintro rfl
      obtain ⟨b, rfl, hb, _⟩ := hend.transfer hcode
      rw [(hbasic b rfl).2] at hb
      cases hb
    obtain ⟨R₁, Γ₁, hpath, hR₁, hready, _⟩ := h.next hpq hcode hstore hjump
    have hrest := ih hpath hp.2
    refine ⟨fun hr hv hmem => ?_, fun hmem => ?_⟩
    · rcases List.mem_cons.mp hmem with heq | hmem
      · exact hready _ (hload _ (Line.op.inj heq).symm)
      · exact (hrest.slot hr hv hmem).imp (hR₁ _) id
    · rcases List.mem_cons.mp hmem with heq | hmem
      · obtain rfl := (Line.op.inj heq).symm
        exact absurd ho.2 nofun
      · exact fun n hn => hR₁ n (hrest.call hmem n hn)
  | @call name rest _ _ ih =>
    obtain ⟨o, ho, hpush⟩ := hp.1 rfl
    obtain ⟨e, _, rfl⟩ := Option.map_eq_some_iff.mp ho
    obtain ⟨o, ho, hcall⟩ := hp.2.1 rfl
    cases ho
    have hne {k : Nat} {o : Op Nat} (hop : W.code[k]? = some (.ok o))
        (ho : ∀ b, o = .basic b → b = .call) : k ≠ q := by
      rintro rfl
      obtain ⟨b, hb, _, hcall⟩ := hend.transfer hop
      exact hcall (ho b hb)
    obtain ⟨R₁, Γ₁, hpath, hR₁, _, _⟩ :=
      h.next (hne hpush nofun) hpush nofun fun l => ⟨nofun, nofun⟩
    obtain ⟨R₂, Γ₂, hpath, hR₂, _, hglobals⟩ :=
      hpath.next (hne hcall fun b hb => (Op.basic.inj hb).symm) hcall nofun fun l => ⟨nofun, nofun⟩
    have hrest := ih hpath hp.2.2
    refine ⟨fun hr hv hmem => ?_, fun _ n hn => hR₁ n (hglobals rfl n hn)⟩
    have hmem := (List.mem_cons.mp ((List.mem_cons.mp hmem).resolve_left nofun)).resolve_left nofun
    exact (hrest.slot hr hv hmem).imp (fun hn => hR₁ _ (hR₂ _ hn)) id

/-! ## expressions -/

/-- From position `a` and state `s` on, the run is for the first time at position `b` outside of the functions
called since then after `k` steps, in state `u`. -/
structure Evaluates (code : Code) (a : Nat) (s : State) (k b : Nat) (u : State) : Prop where
  run : runFrom code k a s = (.suspended b, u)
  calls : u.calls = s.calls
  first : ∀ j < k, ∀ t, runFrom code j a s = (.suspended b, t) → t.calls ≠ s.calls

section
variable {W : Setting} {targets : String → Option Nat} {B : Part} {below : List Value} {under : List Nat}
  {a b k : Nat} {s u : State}

/-- Wherever a run is, it follows some piece of code that ends with a return or with the end of the run. -/
theorem Running.path (h : Running W B below under s.memory a s.stack s.calls) (hB : W.EndsAt B.last) :
    ∃ J F R Γ q R' Γ', W.Ready R s.memory ∧ W.EndsAt q ∧ Path W J F a R Γ q R' Γ' := by
  generalize s.memory = m at h
  generalize s.stack = stack at h
  generalize s.calls = calls at h
  cases h with
  | here hat =>
    obtain ⟨R, Γ, R', hready, _, hpath⟩ := hat
    exact ⟨_, _, R, Γ, _, R', _, hready, hB, hpath⟩
  | called hP hat _ _ =>
    obtain ⟨R, Γ, R', hready, _, hpath⟩ := hat
    exact ⟨_, _, R, Γ, _, R', _, hready, .inl hP.returns, hpath⟩

/-- **A run that comes to the code of an expression leaves a value of the inferred type on the stack**, and
what was on the stack before stays below it. -/
theorem Running.evaluates {S : Scopes} {e : Expr} {t : DataType} {lines : List Line} (hlinked : W.Linked)
    (hW : W.Admits targets S) (hslots : S.SlotsFit) (hB : W.EndsAt B.last)
    (h : Running W B below under s.memory a s.stack s.calls) (hsorted : W.Sorted s.memory)
    (hset : e.setFree = true) (he : ExprCode S e lines) (ht : S.infer e = .ok t)
    (hp : Placed W.code targets a lines b) (hrun : Evaluates W.code a s k b u) (hwithin : W.RunsWithin k a s) :
    ∃ v, u.stack = v :: s.stack ∧ t.Holds v := by
  obtain ⟨J, F, R, Γ, q, R', Γ', hready, hend, hpath⟩ := h.path hB
  have hsupplies : W.Supplies R S lines :=
    hpath.supplies (he.contained (T := fun _ => True) (fun _ _ _ => trivial) hslots) hend hp
  let E : Part := ⟨fun _ => False, fun _ => False, b, [t.Holds]⟩
  have hE : E.Sound W := fun _ hl => hl.elim
  have hat : E.At W s.memory a [] := ⟨R, [], R, hready, .nil, Expr.keeps hW e hset he ht hp hsupplies⟩
  have hstart : Running W E s.stack s.calls s.memory a s.stack s.calls := .here hat
  have hreached := hstart.run hlinked hE hsorted hwithin fun j hj t hj' ht =>
    absurd ht (hrun.first j hj t hj')
  rw [hrun.run] at hreached
  obtain ⟨_, hinside⟩ := hreached
  rw [hrun.calls] at hinside
  obtain ⟨vs, hstack, R₁, Γ₁, R₂, _, hfit, hback⟩ := hinside.at_base
  rw [← hback.kinds_eq (fun _ hl => hl) (Nat.le_refl b)] at hfit
  obtain ⟨v, ws, rfl, hv, hws⟩ := hfit.uncons
  obtain rfl := hws.eq_nil
  exact ⟨v, hstack, hv⟩

end

end PascalStack

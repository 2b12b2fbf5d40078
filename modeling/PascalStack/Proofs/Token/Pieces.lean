import PascalStack.Token.Lexer

/-!
# Pieces of a text

* `Piece.first_append`   the first piece and the text after it are the whole text;
* `pieces_cons`          a text is cut into its first piece and the pieces of what comes after it;
* `pieces_induction`     induction on a text piece by piece;
* `pieces_split`         or into its first pieces and those of what comes after them.
-/

namespace PascalStack

/-! ## nothing is lost -/

theorem closeBrace_append {cs body rest : List Char} (h : closeBrace cs = some (body, rest)) :
    body ++ rest = cs := by
  induction cs generalizing body with
  | nil => cases h
  | cons c cs ih =>
    rw [closeBrace] at h
    split at h
    · rename_i hc
      cases h
      rw [hc]
      rfl
    · obtain ⟨⟨body', rest'⟩, hclose, he⟩ := Option.map_eq_some_iff.mp h
      cases he
      rw [List.cons_append, ih hclose]

theorem closeParen_append {cs body rest : List Char} (h : closeParen cs = some (body, rest)) :
    body ++ rest = cs := by
  induction cs generalizing body with
  | nil => cases h
  | cons c cs ih =>
    unfold closeParen at h
    split at h
    · cases h
      rfl
    · obtain ⟨⟨body', rest'⟩, hclose, he⟩ := Option.map_eq_some_iff.mp h
      cases he
      rw [List.cons_append, ih hclose]

theorem closeQuote_append {cs text body rest : List Char}
    (h : closeQuote cs = some (text, body, rest)) : body ++ rest = cs := by
  fun_induction closeQuote cs generalizing text body with
  | case1 => cases h
  | case2 => cases h; rfl
  | case3 => cases h
  | case4 cs ih =>
    obtain ⟨⟨text', body', rest'⟩, hclose, he⟩ := Option.map_eq_some_iff.mp h
    cases he
    rw [List.cons_append, List.cons_append, ih hclose]
  | case5 => cases h; rfl
  | case6 c d cs hc ih =>
    obtain ⟨⟨text', body', rest'⟩, hclose, he⟩ := Option.map_eq_some_iff.mp h
    cases he
    rw [List.cons_append, ih hclose]

theorem Punct.first?_append {cs rest : List Char} {p : Punct} (h : Punct.first? cs = some (p, rest)) :
    p.text.toList ++ rest = cs := by
  unfold Punct.first? at h
  split at h <;> cases h <;> rfl

namespace Piece

theorem number_append (c : Char) (cs : List Char) :
    (number c cs).1.text ++ (number c cs).2 = c :: cs := by
  have hwhole : cs.takeWhile Char.isDigit ++ cs.dropWhile Char.isDigit = cs := List.takeWhile_append_dropWhile
  unfold number
  dsimp only
  split
  · rename_i d r hdot
    split
    · rw [hdot] at hwhole
      simp only [text, List.cons_append, List.append_assoc, List.takeWhile_append_dropWhile, hwhole]
    · split
      · exact congrArg (c :: ·) hwhole
      · rfl
  · split
    · exact congrArg (c :: ·) hwhole
    · rfl

theorem sign_append (c : Char) (cs : List Char) : (sign c cs).1.text ++ (sign c cs).2 = c :: cs := by
  unfold sign
  split
  · rename_i p rest hp
    exact Punct.first?_append hp
  · rfl

/-- The first piece and the text after it are the whole text. -/
theorem first_append (c : Char) (cs : List Char) : (first c cs).1.text ++ (first c cs).2 = c :: cs := by
  unfold first
  split
  · exact congrArg (c :: ·) List.takeWhile_append_dropWhile
  · split
    · exact congrArg (c :: ·) List.takeWhile_append_dropWhile
    · split
      · exact number_append c cs
      · split
        · split
          · rename_i hclose
            exact congrArg _ (closeBrace_append hclose)
          · rfl
        · split
          · rename_i hclose
            exact congrArg (fun r => _ :: _ :: r) (closeParen_append hclose)
          · rfl
        · split
          · rename_i hclose
            exact congrArg _ (closeQuote_append hclose)
          · rfl
        · exact sign_append c cs

theorem number_text_ne_nil (c : Char) (cs : List Char) : (number c cs).1.text ≠ [] := by
  unfold number
  dsimp only
  split
  · split
    · exact List.cons_ne_nil _ _
    · split <;> exact List.cons_ne_nil _ _
  · split <;> exact List.cons_ne_nil _ _

theorem sign_text_ne_nil (c : Char) (cs : List Char) : (sign c cs).1.text ≠ [] := by
  unfold sign
  split
  · rename_i p _ _
    show p.text.toList ≠ []
    cases p <;> decide
  · exact List.cons_ne_nil _ _

theorem first_text_ne_nil (c : Char) (cs : List Char) : (first c cs).1.text ≠ [] := by
  unfold first
  split
  · exact List.cons_ne_nil _ _
  · split
    · exact List.cons_ne_nil _ _
    · split
      · exact number_text_ne_nil c cs
      · split
        · split <;> exact List.cons_ne_nil _ _
        · split <;> exact List.cons_ne_nil _ _
        · split <;> exact List.cons_ne_nil _ _
        · exact sign_text_ne_nil c cs

theorem first_length_le (c : Char) (cs : List Char) : (first c cs).2.length ≤ cs.length := by
  have hlength := congrArg List.length (first_append c cs)
  have hpos := List.length_pos_iff.mpr (first_text_ne_nil c cs)
  rw [List.length_append, List.length_cons] at hlength
  omega

end Piece

/-! ## one piece after the other -/

theorem piecesUpTo_of_le {n k : Nat} {cs : List Char} (hn : cs.length ≤ n) (hk : cs.length ≤ k) :
    piecesUpTo n cs = piecesUpTo k cs := by
  induction n generalizing k cs with
  | zero =>
    obtain rfl := List.length_eq_zero_iff.mp (Nat.le_zero.mp hn)
    cases k <;> rfl
  | succ n ih =>
    match cs, k, hn, hk with
    | [], 0, _, _ => rfl
    | [], k + 1, _, _ => rfl
    | c :: cs, k + 1, hn, hk =>
      have hle := Piece.first_length_le c cs
      rw [List.length_cons] at hn hk
      rw [piecesUpTo, piecesUpTo, ih (k := k) (by omega) (by omega)]

/-- A text is cut into its first piece and the pieces of what comes after it. -/
theorem pieces_cons (c : Char) (cs : List Char) :
    pieces (c :: cs) = (Piece.first c cs).1 :: pieces (Piece.first c cs).2 := by
  unfold pieces
  rw [List.length_cons, piecesUpTo, piecesUpTo_of_le (Piece.first_length_le c cs) (Nat.le_refl _)]

/-- Induction on a text piece by piece. -/
theorem pieces_induction {P : List Char → Prop} (nil : P [])
    (cons : ∀ c cs, P (Piece.first c cs).2 → P (c :: cs)) (cs : List Char) : P cs := by
  induction hn : cs.length using Nat.strongRecOn generalizing cs with
  | ind n ih =>
    cases cs with
    | nil => exact nil
    | cons c cs =>
      have hle := Piece.first_length_le c cs
      rw [List.length_cons] at hn
      exact cons c cs (ih _ (by omega) _ rfl)

/-- The text after its first `k` pieces. -/
def textAfter : (k : Nat) → List Char → List Char
  | 0, cs => cs
  | _ + 1, [] => []
  | k + 1, c :: cs => textAfter k (Piece.first c cs).2

theorem pieces_split (k : Nat) (cs : List Char) :
    pieces cs = piecesUpTo k cs ++ pieces (textAfter k cs) := by
  induction k generalizing cs with
  | zero => cases cs <;> rfl
  | succ k ih =>
    cases cs with
    | nil => rfl
    | cons c cs => rw [pieces_cons, ih (Piece.first c cs).2, piecesUpTo, textAfter, List.cons_append]

end PascalStack

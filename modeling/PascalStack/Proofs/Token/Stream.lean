import PascalStack.Proofs.Token.Cut
import PascalStack.Token.Stream

/-!
# Draining a lexer gives the pieces of the source

Between two matches a lexer stands at a place between two characters of the source: `offset`, plus where the last
match ended in the text of the matcher.  A token moves it behind the token, an illegal character behind that one
character, however much of the text the matcher has read.

* `textFrom_byteCount`     a text is cut where another one ends in it;
* `LineIndex.lineOf_of`    the line that is found for a place is counted by the line feeds before it;
* `Lexer.At`               where a lexer stands;
* `Lexer.At.nextUpTo_token`, `Lexer.At.nextUpTo_illegal` and others   what a turn does to that;
* `Lexer.At.drainUpTo`     the tokens that are left, and the characters noted on the way;
* `lexer_accounts`         tokens and illegal characters of a source text.
-/

namespace PascalStack

/-! ## places -/

theorem byteCount_append (a b : List Char) : byteCount (a ++ b) = byteCount a + byteCount b := by
  induction a with
  | nil => exact (Nat.zero_add _).symm
  | cons c a ih => rw [List.cons_append, byteCount, byteCount, ih, Nat.add_assoc]

theorem byteCount_pos {text : List Char} (h : text ≠ []) : 0 < byteCount text := by
  obtain ⟨c, cs, rfl⟩ := List.exists_cons_of_ne_nil h
  rw [byteCount]
  exact Nat.add_pos_left c.utf8Size_pos _

theorem textFrom_byteCount (before rest : List Char) :
    textFrom (before ++ rest) (byteCount before) = some rest := by
  induction before with
  | nil => cases rest <;> rfl
  | cons c before ih =>
    have hpos := c.utf8Size_pos
    rw [List.cons_append, textFrom, byteCount, if_neg (by omega), if_pos (Nat.le_add_right ..),
      Nat.add_sub_cancel_left, ih]

theorem lineFeeds_append (place : Nat) (a b : List Char) :
    lineFeeds place (a ++ b) = lineFeeds place a ++ lineFeeds (place + byteCount a) b := by
  induction a generalizing place with
  | nil => rfl
  | cons c a ih =>
    rw [List.cons_append, lineFeeds, lineFeeds, ih, byteCount, Nat.add_assoc]
    split <;> rfl

theorem length_lineFeeds (place : Nat) (text : List Char) :
    (lineFeeds place text).length = text.count '\n' := by
  induction text generalizing place with
  | nil => rfl
  | cons c cs ih =>
    rw [lineFeeds]
    by_cases hc : c = '\n'
    · rw [if_pos hc, hc, List.length_cons, ih, List.count_cons_self]
    · rw [if_neg hc, ih, List.count_cons_of_ne hc]

theorem mem_lineFeeds {place n : Nat} {text : List Char} (h : n ∈ lineFeeds place text) :
    place ≤ n ∧ n < place + byteCount text := by
  induction text generalizing place with
  | nil => cases h
  | cons c cs ih =>
    have hpos := c.utf8Size_pos
    rw [lineFeeds] at h
    rw [byteCount]
    by_cases hc : c = '\n'
    · rw [if_pos hc] at h
      rcases List.mem_cons.mp h with rfl | h
      · omega
      · have := ih h
        omega
    · rw [if_neg hc] at h
      have := ih h
      omega

/-! ## lines -/

namespace LineIndex

/-- The search ends at the number `k` before which all starts are up to `place`, and no others are. -/
theorem search_eq {starts : Array Nat} {place k base size : Nat}
    (hk : ∀ i (hi : i < starts.size), starts[i] ≤ place ↔ i < k) (hsize : 0 < size)
    (h : base + size ≤ starts.size) (hlow : base ≤ k) (hhigh : k ≤ base + size) :
    search starts place base size hsize h = k := by
  fun_induction search starts place base size hsize h with
  | case1 base _ h hle =>
    have := (hk base (by omega)).mp hle
    omega
  | case2 base _ h hnot =>
    have := mt (hk base (by omega)).mpr hnot
    omega
  | case3 base size _ h _ hle ih =>
    have := (hk (base + size / 2) (by omega)).mp hle
    exact ih (by omega) (by omega)
  | case4 base size _ h _ hnot ih =>
    have := mt (hk (base + size / 2) (by omega)).mpr hnot
    exact ih hlow (by omega)

theorem getElem_le_iff {front back : List Nat} {place : Nat} (hfront : ∀ n ∈ front, n ≤ place)
    (hback : ∀ n ∈ back, place < n) (i : Nat) (hi : i < (front ++ back).toArray.size) :
    (front ++ back).toArray[i] ≤ place ↔ i < front.length := by
  rw [List.getElem_toArray]
  by_cases hlt : i < front.length
  · rw [List.getElem_append_left hlt]
    exact iff_of_true (hfront _ (List.getElem_mem hlt)) hlt
  · rw [List.getElem_append_right (Nat.le_of_not_lt hlt)]
    exact iff_of_false (Nat.not_le_of_lt (hback _ (List.getElem_mem _))) hlt

theorem lineOf_mk {front back : List Nat} {place : Nat} (hne : front ≠ []) (hfront : ∀ n ∈ front, n ≤ place)
    (hback : ∀ n ∈ back, place < n) : lineOf ⟨(front ++ back).toArray⟩ place = front.length := by
  have hpos := List.length_pos_iff.mpr hne
  have hle : front.length ≤ (front ++ back).toArray.size := by
    rw [List.size_toArray, List.length_append]
    omega
  unfold lineOf
  rw [dif_pos (Nat.lt_of_lt_of_le hpos hle)]
  exact search_eq (getElem_le_iff hfront hback) _ _ (Nat.zero_le _) (by rwa [Nat.zero_add])

/-- **The line of a place is one more than the line feeds before it.** -/
theorem lineOf_of (before rest : List Char) :
    (of (before ++ rest)).lineOf (byteCount before) = lineAfter 1 before := by
  have hfront : ∀ n ∈ 0 :: (lineFeeds 0 before).map (· + 1), n ≤ byteCount before := by
    intro n hn
    rcases List.mem_cons.mp hn with rfl | hn
    · exact Nat.zero_le _
    · obtain ⟨m, hm, rfl⟩ := List.mem_map.mp hn
      have := mem_lineFeeds hm
      omega
  have hback : ∀ n ∈ (lineFeeds (byteCount before) rest).map (· + 1), byteCount before < n := by
    intro n hn
    obtain ⟨m, hm, rfl⟩ := List.mem_map.mp hn
    have := mem_lineFeeds hm
    omega
  calc (of (before ++ rest)).lineOf (byteCount before)
    _ = lineOf ⟨(0 :: (lineFeeds 0 before).map (· + 1)
          ++ (lineFeeds (byteCount before) rest).map (· + 1)).toArray⟩ (byteCount before) := by
      rw [of, lineFeeds_append, List.map_append, Nat.zero_add, List.cons_append]
    _ = (0 :: (lineFeeds 0 before).map (· + 1)).length := lineOf_mk (List.cons_ne_nil _ _) hfront hback
    _ = lineAfter 1 before := by
      rw [List.length_cons, List.length_map, length_lineFeeds, lineAfter, Nat.add_comm]

end LineIndex

/-! ## matches -/

theorem Piece.length_rest_le {c : Char} {cs rest : List Char} {p : Piece} (h : first c cs = (p, rest)) :
    rest.length ≤ cs.length := by
  have hle := first_length_le c cs
  rwa [h] at hle

theorem Piece.eq_of_first_illegal {c d : Char} {cs rest : List Char} (h : first c cs = (.illegal d, rest)) :
    d = c ∧ rest = cs := by
  have happend := first_append c cs
  rw [h] at happend
  exact List.cons.inj happend

namespace Matcher
variable {reach : Reach} {m : Matcher} {c : Char} {cs text rest : List Char} {p : Piece} {t : Token} {n k : Nat}

theorem nextUpTo_nil (h : m.rest = []) : m.nextUpTo reach (n + 1) = some (.ended, m.read [] []) := by
  rw [nextUpTo, h]

theorem nextUpTo_filler (h : m.rest = c :: cs) (hp : Piece.first c cs = (p, rest))
    (hfiller : p.isFiller = true) :
    m.nextUpTo reach (n + 1) = (m.read p.text rest).nextUpTo reach n := by
  rw [nextUpTo, h]
  dsimp only
  rw [hp]
  cases p with
  | blank text => rfl
  | comment text => rfl
  | token t text => cases hfiller
  | illegal c => cases hfiller

theorem nextUpTo_token (h : m.rest = c :: cs) (hp : Piece.first c cs = (.token t text, rest)) :
    m.nextUpTo reach (n + 1) = some (.token t, m.read text rest) := by
  rw [nextUpTo, h]
  dsimp only
  rw [hp]

theorem nextUpTo_illegal {d : Char} (h : m.rest = c :: cs) (hp : Piece.first c cs = (.illegal d, rest)) :
    m.nextUpTo reach (n + 1)
      = some (.illegal, m.read (c :: cs.take (reach c cs)) (cs.drop (reach c cs))) := by
  rw [nextUpTo, h]
  dsimp only
  rw [hp]

/-- More turns than characters change nothing. -/
theorem nextUpTo_eq (hn : m.rest.length < n) (hk : m.rest.length < k) :
    m.nextUpTo reach n = m.nextUpTo reach k := by
  induction n generalizing k m with
  | zero => omega
  | succ n ih =>
    obtain ⟨k, rfl⟩ := Nat.exists_eq_succ_of_ne_zero (Nat.ne_zero_of_lt hk)
    cases hrest : m.rest with
    | nil => rw [nextUpTo_nil hrest, nextUpTo_nil hrest]
    | cons c cs =>
      obtain ⟨p, rest, hp⟩ : ∃ p rest, Piece.first c cs = (p, rest) := ⟨_, _, rfl⟩
      -- a piece takes at least one character, so the turns that are left are enough for the rest
      have hle := Piece.length_rest_le hp
      rw [hrest, List.length_cons] at hn hk
      have hn' : rest.length < n := by omega
      have hk' : rest.length < k := by omega
      have hfiller : ∀ text, (m.read text rest).nextUpTo reach n = (m.read text rest).nextUpTo reach k :=
        fun _ => ih hn' hk'
      cases p with
      | blank text => rw [nextUpTo_filler hrest hp rfl, nextUpTo_filler hrest hp rfl, hfiller]
      | comment text => rw [nextUpTo_filler hrest hp rfl, nextUpTo_filler hrest hp rfl, hfiller]
      | token t text => rw [nextUpTo_token hrest hp, nextUpTo_token hrest hp]
      | illegal d => rw [nextUpTo_illegal hrest hp, nextUpTo_illegal hrest hp]

theorem next_filler (h : m.rest = c :: cs) (hp : Piece.first c cs = (p, rest)) (hfiller : p.isFiller = true) :
    m.next reach = (m.read p.text rest).next reach := by
  rw [next, nextUpTo_filler h hp hfiller, h]
  exact nextUpTo_eq (Nat.lt_succ_of_le (Piece.length_rest_le hp)) (Nat.lt_succ_self _)

end Matcher

/-! ## where a lexer stands -/

namespace Lexer
variable {reach : Reach} {l : Lexer} {before rest text cs : List Char} {c : Char} {p : Piece} {t : Token} {n k : Nat}

/-- A lexer has read the source up to the end of `before`. -/
structure At (l : Lexer) (before rest : List Char) : Prop where
  source : l.source = before ++ rest
  lines : l.lines = .of l.source
  place : l.offset + l.inner.stop = byteCount before
  rest : l.inner.rest = rest

theorem at_of (source : String) : (of source).At [] source.toList := ⟨rfl, rfl, rfl, rfl⟩

theorem At.lineOf (h : l.At before rest) : l.lines.lineOf (l.offset + l.inner.stop) = lineAfter 1 before := by
  rw [h.lines, h.source, h.place, LineIndex.lineOf_of]

/-- The matcher goes on by a piece of the text. -/
theorem At.read (h : l.At before (text ++ rest)) :
    At { l with inner := l.inner.read text rest } (before ++ text) rest where
  source := by rw [h.source, List.append_assoc]
  lines := h.lines
  place := by
    rw [byteCount_append, ← h.place, Nat.add_assoc]
    rfl
  rest := rfl

theorem At.first (h : l.At before (c :: cs)) (hp : Piece.first c cs = (p, rest)) :
    At { l with inner := l.inner.read p.text rest } (before ++ p.text) rest := by
  have happend := Piece.first_append c cs
  rw [hp] at happend
  rw [← happend] at h
  exact h.read

theorem restartAt_eq {place : Nat} (h : textFrom l.source place = some rest) :
    l.restartAt place = some { l with offset := place, inner := .of rest } := by
  rw [restartAt, h]
  rfl

theorem skip_eq {start line : Nat} (h : textFrom l.source start = some (c :: cs)) :
    l.skip start line =
      if l.offset + l.inner.stop = start + c.utf8Size then some { l with errors := l.errors ++ [⟨line, c⟩] }
      else restartAt { l with errors := l.errors ++ [⟨line, c⟩] } (start + c.utf8Size) := by
  rw [skip, h]
  rfl

/-- A lexer goes on right behind an illegal character: there stands the matcher if it has read no more, else a
new one is started. -/
theorem At.skip {k : Nat} (h : l.At (before ++ c :: cs.take k) (cs.drop k)) (line : Nat) :
    ∃ l', l.skip (byteCount before) line = some l' ∧ l'.At (before ++ [c]) cs ∧
      l'.errors = l.errors ++ [⟨line, c⟩] := by
  have hsource : l.source = before ++ c :: cs := by
    rw [h.source, List.append_assoc, List.cons_append, List.take_append_drop]
  have hbehind : l.source = (before ++ [c]) ++ cs := by rw [hsource, List.append_cons]
  have hresume : byteCount before + c.utf8Size = byteCount (before ++ [c]) := by
    rw [byteCount_append]
    rfl
  have hplace := h.place
  rw [byteCount_append, byteCount] at hplace
  rw [skip_eq (by rw [hsource, textFrom_byteCount])]
  -- the matcher stands right behind the character exactly if it has read nothing after it
  by_cases hread : cs.take k = []
  · have hzero : byteCount (cs.take k) = 0 := by
      rw [hread]
      rfl
    have hdrop : cs.drop k = cs := by
      have happend := List.take_append_drop k cs
      rwa [hread, List.nil_append] at happend
    rw [if_pos (by omega)]
    have hplace : l.offset + l.inner.stop = byteCount (before ++ [c]) := by omega
    exact ⟨_, rfl, ⟨hbehind, h.lines, hplace, h.rest.trans hdrop⟩, rfl⟩
  · have hpos := byteCount_pos hread
    rw [if_neg (by omega), hresume, restartAt_eq (by rw [hbehind, textFrom_byteCount])]
    exact ⟨_, rfl, ⟨hbehind, h.lines, rfl, rfl⟩, rfl⟩

theorem At.nextUpTo_nil (h : l.At before []) :
    l.nextUpTo reach (n + 1) = some (none, { l with inner := l.inner.read [] [] }) := by
  rw [nextUpTo, Matcher.next, Matcher.nextUpTo_nil h.rest]
  rfl

theorem At.nextUpTo_filler (h : l.At before (c :: cs)) (hp : Piece.first c cs = (p, rest))
    (hfiller : p.isFiller = true) :
    l.nextUpTo reach (n + 1) = nextUpTo reach (n + 1) { l with inner := l.inner.read p.text rest } := by
  rw [nextUpTo, nextUpTo, Matcher.next_filler h.rest hp hfiller]

theorem At.nextUpTo_token (h : l.At before (c :: cs)) (hp : Piece.first c cs = (.token t text, rest)) :
    l.nextUpTo reach (n + 1)
      = some (some ⟨lineAfter 1 before, t⟩, { l with inner := l.inner.read text rest }) := by
  rw [nextUpTo, Matcher.next, Matcher.nextUpTo_token h.rest hp, ← h.lineOf]
  rfl

theorem At.nextUpTo_illegal (h : l.At before (c :: cs)) (reach : Reach)
    (hp : Piece.first c cs = (.illegal c, cs)) :
    ∃ l', (∀ n, l.nextUpTo reach (n + 1) = nextUpTo reach n l') ∧ l'.At (before ++ [c]) cs ∧
      l'.errors = l.errors ++ [⟨lineAfter 1 before, c⟩] := by
  have hread : l.At before ((c :: cs.take (reach c cs)) ++ cs.drop (reach c cs)) := by
    rwa [List.cons_append, List.take_append_drop]
  obtain ⟨l', hskip, hat, herrors⟩ := hread.read.skip (lineAfter 1 before)
  refine ⟨l', fun n => ?_, hat, herrors⟩
  rw [nextUpTo, Matcher.next, Matcher.nextUpTo_illegal h.rest hp]
  show (Lexer.skip _ (l.offset + l.inner.stop) (l.lines.lineOf (l.offset + l.inner.stop))).bind
    (nextUpTo reach n) = nextUpTo reach n l'
  rw [h.lineOf, h.place, hskip]
  rfl

/-- More turns than characters change nothing. -/
theorem At.nextUpTo_eq (h : l.At before rest) (hn : rest.length < n) (hk : rest.length < k) :
    l.nextUpTo reach n = l.nextUpTo reach k := by
  induction rest using pieces_induction generalizing l before n k with
  | nil =>
    obtain ⟨n, rfl⟩ := Nat.exists_eq_succ_of_ne_zero (Nat.ne_zero_of_lt hn)
    obtain ⟨k, rfl⟩ := Nat.exists_eq_succ_of_ne_zero (Nat.ne_zero_of_lt hk)
    rw [h.nextUpTo_nil, h.nextUpTo_nil]
  | cons c cs ih =>
    obtain ⟨n, rfl⟩ := Nat.exists_eq_succ_of_ne_zero (Nat.ne_zero_of_lt hn)
    obtain ⟨k, rfl⟩ := Nat.exists_eq_succ_of_ne_zero (Nat.ne_zero_of_lt hk)
    obtain ⟨p, rest, hp⟩ : ∃ p rest, Piece.first c cs = (p, rest) := ⟨_, _, rfl⟩
    have hle := Piece.length_rest_le hp
    rw [List.length_cons] at hn hk
    rw [hp] at ih
    dsimp only at ih
    cases p with
    | blank text =>
      rw [h.nextUpTo_filler hp rfl, h.nextUpTo_filler hp rfl]
      exact ih (h.first hp) (by omega) (by omega)
    | comment text =>
      rw [h.nextUpTo_filler hp rfl, h.nextUpTo_filler hp rfl]
      exact ih (h.first hp) (by omega) (by omega)
    | token t text => rw [h.nextUpTo_token hp, h.nextUpTo_token hp]
    | illegal d =>
      obtain ⟨rfl, rfl⟩ := Piece.eq_of_first_illegal hp
      obtain ⟨l', hnext, hat, -⟩ := h.nextUpTo_illegal reach hp
      rw [hnext, hnext]
      exact ih hat (by omega) (by omega)

theorem At.next_illegal (h : l.At before (c :: cs)) (reach : Reach) (hp : Piece.first c cs = (.illegal c, cs)) :
    ∃ l', l.next reach = Lexer.next reach l' ∧ l'.At (before ++ [c]) cs ∧
      l'.errors = l.errors ++ [⟨lineAfter 1 before, c⟩] := by
  obtain ⟨l', hnext, hat, herrors⟩ := h.nextUpTo_illegal reach hp
  have hlength := congrArg List.length h.source
  have hlength' := congrArg List.length hat.source
  rw [List.length_append, List.length_cons] at hlength
  rw [List.length_append, List.length_append] at hlength'
  refine ⟨l', ?_, hat, herrors⟩
  rw [next, next, hnext]
  exact hat.nextUpTo_eq (by omega) (by omega)

/-! ## all tokens -/

theorem drainUpTo_congr {l₁ : Lexer} (h : l.next reach = l₁.next reach) :
    l.drainUpTo reach n = l₁.drainUpTo reach n := by
  cases n with
  | zero => rfl
  | succ n => rw [drainUpTo, drainUpTo, h]

theorem drainUpTo_cons {l₁ last : Lexer} {x : Lexeme} {xs : List (Lexeme × Nat)}
    (h : l.next reach = some (some x, l₁)) (hxs : l₁.drainUpTo reach n = some (xs, last)) :
    l.drainUpTo reach (n + 1) = some ((x, l₁.errors.length) :: xs, last) := by
  rw [drainUpTo, h]
  show (l₁.drainUpTo reach n).bind _ = _
  rw [hxs]
  rfl

/-- **A lexer finds the pieces of the text before it.** -/
theorem At.drainUpTo (h : l.At before rest) (reach : Reach) (hn : rest.length < n) :
    ∃ last, l.drainUpTo reach n
        = some (countErrors l.errors.length (locate (lineAfter 1 before) (pieces rest)), last) ∧
      last.errors = l.errors ++ errorsOf (locate (lineAfter 1 before) (pieces rest)) := by
  induction rest using pieces_induction generalizing l before n with
  | nil =>
    obtain ⟨n, rfl⟩ := Nat.exists_eq_succ_of_ne_zero (Nat.ne_zero_of_lt hn)
    rw [Lexer.drainUpTo, next, h.nextUpTo_nil]
    exact ⟨_, rfl, (List.append_nil _).symm⟩
  | cons c cs ih =>
    obtain ⟨n, rfl⟩ := Nat.exists_eq_succ_of_ne_zero (Nat.ne_zero_of_lt hn)
    obtain ⟨p, rest, hp⟩ : ∃ p rest, Piece.first c cs = (p, rest) := ⟨_, _, rfl⟩
    have hle := Piece.length_rest_le hp
    rw [List.length_cons] at hn
    rw [hp] at ih
    dsimp only at ih
    rw [pieces_cons, hp, locate, ← lineAfter_append]
    cases p with
    | blank text =>
      rw [drainUpTo_congr (h.nextUpTo_filler hp rfl)]
      exact ih (h.first hp) (by omega)
    | comment text =>
      rw [drainUpTo_congr (h.nextUpTo_filler hp rfl)]
      exact ih (h.first hp) (by omega)
    | token t text =>
      have hn : rest.length < n := by omega
      obtain ⟨last, hlast, herrors⟩ := ih (h.first hp) hn
      have hdrain := drainUpTo_cons (h.nextUpTo_token hp) hlast
      exact ⟨last, hdrain, herrors⟩
    | illegal d =>
      obtain ⟨rfl, rfl⟩ := Piece.eq_of_first_illegal hp
      obtain ⟨l', hnext, hat, hnoted⟩ := h.next_illegal reach hp
      -- `next` goes on after the character by itself, so it costs no turn here
      have hn : rest.length < n + 1 := by omega
      obtain ⟨last, hlast, herrors⟩ := ih hat hn
      rw [drainUpTo_congr hnext, hlast, hnoted, List.length_append]
      refine ⟨last, rfl, ?_⟩
      rw [herrors, hnoted, List.append_assoc]
      rfl

/-- Draining a lexer gives the tokens and the illegal characters of the source. -/
theorem drain_of (reach : Reach) (source : String) :
    ∃ l, (of source).drain reach = some (countErrors 0 (scan source), l) ∧ l.errors = lexicalErrors source :=
  (at_of source).drainUpTo reach (Nat.lt_succ_self _)

end Lexer

theorem map_fst_countErrors (n : Nat) (xs : List (Nat × Piece)) :
    (countErrors n xs).map Prod.fst = lexemesOf xs := by
  induction xs generalizing n with
  | nil => rfl
  | cons x xs ih =>
    obtain ⟨line, p⟩ := x
    cases p with
    | token t _ => exact congrArg (⟨line, t⟩ :: ·) (ih n)
    | illegal _ => exact ih (n + 1)
    | blank _ => exact ih n
    | comment _ => exact ih n

/-! ## every character -/

/-- The tokens among some pieces, each with the illegal characters before it. -/
theorem countErrors_locate (n line : Nat) (ps : List Piece) :
    countErrors n (locate line ps) = ps.zipIdx.filterMap fun x =>
      (x.1.lexeme? (lineAfter line ((ps.take x.2).flatMap Piece.text))).map fun y =>
        (y, n + (ps.take x.2).countP Piece.isIllegal) := by
  induction ps generalizing n line with
  | nil => rfl
  | cons p ps ih =>
    have htail : countErrors (n + if p.isIllegal then 1 else 0) (locate (lineAfter line p.text) ps) =
        (ps.zipIdx.map (Prod.map id (· + 1))).filterMap fun x =>
          (x.1.lexeme? (lineAfter line (((p :: ps).take x.2).flatMap Piece.text))).map fun y =>
            (y, n + ((p :: ps).take x.2).countP Piece.isIllegal) := by
      rw [ih, List.filterMap_map]
      refine List.filterMap_congr fun x _ => ?_
      simp only [Function.comp, Prod.map, id, List.take_succ_cons, List.flatMap_cons, lineAfter_append,
        List.countP_cons, Nat.add_assoc, Nat.add_comm (if p.isIllegal then 1 else 0)]
    rw [List.zipIdx_cons', List.filterMap_cons, ← htail]
    cases p <;> rfl

/-- **Every character is accounted for.**  There is one list of nonempty pieces that make up the text and fit where
they stand.  However far the matcher reads where no token begins, a lexer comes to the end of the text.  The tokens
and the illegal characters among the pieces are what it finds and notes, in their order; each has one more than
the number of line feeds before it as its line, and these lines never decrease. -/
theorem lexer_accounts (reach : Reach) (source : String) :
    (∀ ps, ps = pieces source.toList ↔ ps.flatMap Piece.text = source.toList ∧
      ∀ before p after, ps = before ++ p :: after → p.text ≠ [] ∧ p.Fits (after.flatMap Piece.text)) ∧
    (∃ l, (Lexer.of source).drain reach = some ((pieces source.toList).zipIdx.filterMap (fun x =>
        (x.1.lexeme? (lineOf (pieces source.toList) x.2)).map fun y =>
          (y, ((pieces source.toList).take x.2).countP Piece.isIllegal)), l) ∧
      l.errors = (pieces source.toList).zipIdx.filterMap
        (fun x => x.1.error? (lineOf (pieces source.toList) x.2))) ∧
    lexemes source = (pieces source.toList).zipIdx.filterMap
      (fun x => x.1.lexeme? (lineOf (pieces source.toList) x.2)) ∧
    lexicalErrors source = (pieces source.toList).zipIdx.filterMap
      (fun x => x.1.error? (lineOf (pieces source.toList) x.2)) ∧
    ((scan source).map Prod.fst).Pairwise (· ≤ ·) ∧
    ((lexemes source).map Lexeme.line).Pairwise (· ≤ ·) ∧
    ((lexicalErrors source).map LexicalError.line).Pairwise (· ≤ ·) := by
  refine ⟨fun ps => ?_, ?_, lexemes_eq source, lexicalErrors_eq source, ?_, ?_, ?_⟩
  · rw [← pieces_iff, allFit_iff]
    refine and_congr_right fun _ => forall₄_congr fun before p after _ => ?_
    exact ⟨fun h => ⟨h.text_ne_nil, h⟩, fun h => h.2⟩
  · obtain ⟨l, hdrain, herrors⟩ := Lexer.drain_of reach source
    have hcount := countErrors_locate 0 1 (pieces source.toList)
    simp only [Nat.zero_add] at hcount
    exact ⟨l, hdrain.trans (congrArg (fun xs => some (xs, l)) hcount), herrors.trans (lexicalErrors_eq source)⟩
  · exact List.pairwise_map.mpr (lines_locate 1 _)
  · exact List.pairwise_map.mpr (lines_lexemes source)
  · exact List.pairwise_map.mpr (lines_lexicalErrors source)

/-- Behind the brace and behind two of the digits a new matcher is started. -/
example : ((Lexer.of "\x7bé\n99999999999999999999 x").drain reachOfRules).map (fun x => (x.1, x.2.errors)) =
    some ([(⟨2, .integer 999999999999999999⟩, 4), (⟨2, .identifier "x"⟩, 4)],
      [⟨1, '\x7b'⟩, ⟨1, 'é'⟩, ⟨2, '9'⟩, ⟨2, '9'⟩]) := by
  decide +kernel

end PascalStack

import PascalStack.Proofs.Simulation.Correctness
import PascalStack.Proofs.Token.Written

/-!
# String literals

A text that is written as a literal comes out again when the program that writes it is run.

* `Piece.first_literal`       a literal is read as the text it was made of;
* `tokens_literalSource`      the tokens of the program that writes a literal;
* `parse_literalSource`       its tree;
* `compileTree_literal`       its code;
* `execute_literalSource`     its run.
-/

namespace PascalStack

/-! ## reading literals -/

theorem Piece.first_literal (text rest : List Char) (hrest : rest.head? ≠ some '\'') :
    Piece.first '\'' (doubleQuotes text ++ '\'' :: rest)
      = (.token (.string (String.ofList text)) ('\'' :: (doubleQuotes text ++ ['\''])), rest) := by
  have hfirst := Piece.first_written (.string text) hrest
  rwa [List.append_assoc] at hfirst

def Piece.token? : Piece → Option Token
  | .token t _ => some t
  | _ => none

theorem tokensOf_locate (line : Nat) (ps : List Piece) :
    tokensOf (lexemesOf (locate line ps)) = ps.filterMap Piece.token? := by
  induction ps generalizing line with
  | nil => rfl
  | cons p ps ih =>
    cases p with
    | token t text => exact congrArg (t :: ·) (ih _)
    | blank text => exact ih _
    | comment text => exact ih _
    | illegal c => exact ih _

/-- The program that writes a text. -/
def literalSource (text : String) : String := "program P; begin write(" ++ quoted text ++ ") end."

theorem toList_around_quoted (before text after : String) : (before ++ quoted text ++ after).toList =
    before.toList ++ '\'' :: (doubleQuotes text.toList ++ '\'' :: after.toList) := by
  simp [quoted]

theorem toList_literalSource (text : String) : (literalSource text).toList =
    "program P; begin write(".toList ++ '\'' :: (doubleQuotes text.toList ++ '\'' :: ") end.".toList) :=
  toList_around_quoted _ _ _

theorem tokens_before (rest : List Char) :
    (pieces ("program P; begin write(".toList ++ '\'' :: rest)).filterMap Piece.token? =
      [.keyword .program, .identifier "P", .punct .semicolon, .keyword .begin, .identifier "write",
        .punct .leftParen] ++ (pieces ('\'' :: rest)).filterMap Piece.token? := by
  rw [pieces_split 9, List.filterMap_append]
  rfl

theorem tokens_literalSource (text : String) : tokensOf (lexemes (literalSource text)) =
    [.keyword .program, .identifier "P", .punct .semicolon, .keyword .begin, .identifier "write",
      .punct .leftParen, .string text, .punct .rightParen, .keyword .end, .punct .dot] := by
  have hafter : ") end.".toList = [')', ' ', 'e', 'n', 'd', '.'] := rfl
  rw [lexemes, scan, tokensOf_locate, toList_literalSource, tokens_before, pieces_cons,
    hafter, Piece.first_literal _ _ (by decide), String.ofList_toList]
  rfl

/-! ## the tree -/

section
variable {rules : Array Rule} {A : Nonterminal} {d : Derivation} {w : List Token}

theorem Derives.of_rule (n : Nat) {Xs : List Symbol} {f : Action Xs A.Value} {ds : List Derivation}
    {v : A.Value} (h : rules[n]? = some ⟨A, Xs, f⟩) (hall : DerivesAll rules ds Xs w f v) :
    Derives rules (.node n ds) (.nonterminal A) w v :=
  .node h hall

theorem DerivesAll.last {R : Type} {X : Symbol} {f : X.Value → R} {x : X.Value}
    (hd : Derives rules d X w x) : DerivesAll rules [d] [X] w (R := R) f (f x) := by
  have hnil : DerivesAll rules [] [] [] (f x) (f x) := .nil (R := R) (f x)
  have hall : DerivesAll rules [d] [X] (w ++ []) f (f x) := .cons hd hnil
  rwa [List.append_nil] at hall

/-- A rule with one symbol on its right. -/
theorem Derives.of_single (n : Nat) {X : Symbol} {f : X.Value → A.Value} {x : X.Value}
    (h : rules[n]? = some ⟨A, [X], f⟩) (hd : Derives rules d X w x) :
    Derives rules (.node n [d]) (.nonterminal A) w (f x) :=
  .of_rule n h (.last hd)

end

open Grammar in
theorem derives_literal (text : String) : ∃ d, Derives rules d (phrase .expr) [.string text]
    (.constant (.ofLiteral text)) := by
  have hconstant : Derives rules _ (phrase .constant) [.string text] (Constant.ofLiteral text) :=
    .of_single 90 rfl (.leaf (.string text))
  have hpower : Derives rules _ (phrase .power) [.string text] (Expr.constant (.ofLiteral text)) :=
    .of_single 80 rfl (Derives.of_single (A := .primary) 83 rfl hconstant)
  have hterm : Derives rules _ (phrase .term) [.string text] (Expr.constant (.ofLiteral text)) :=
    .of_single 76 rfl (Derives.of_single (A := .factor) 79 rfl hpower)
  exact ⟨_, .of_single 72 rfl (Derives.of_single (A := .simpleExpr) 74 rfl hterm)⟩

open Grammar in
theorem derives_name (name : String) : ∃ d, Derives rules d (phrase .identifier) [.identifier name] name := by
  have hleaf : Derives rules _ (.terminal .identifier) [.identifier name] name := .leaf (.identifier name)
  exact ⟨_, Derives.of_single (A := .identifier) (f := fun x => x) 3 rfl hleaf⟩

def writeLiteral (text : String) : Stmt := .call "write" [.value (.constant (.ofLiteral text))]

def literalProgram (text : String) : Program := ⟨"P", [], .mk [] [] [writeLiteral text]⟩

open Grammar in
theorem derives_writeLiteral (text : String) : ∃ d, Derives rules d (phrase .closedStatement)
    [.identifier "write", .punct .leftParen, .string text, .punct .rightParen] (writeLiteral text) := by
  obtain ⟨dvalue, hvalue⟩ := derives_literal text
  obtain ⟨dname, hname⟩ := derives_name "write"
  have harguments : Derives rules _ (phrase .argumentList) [.string text]
      [Argument.value (.constant (.ofLiteral text))] :=
    .of_single 67 rfl (Derives.of_single (A := .argument) 69 rfl hvalue)
  have hparameters := Derives.of_rule (A := .parameters) 66 rfl
    (.cons (.leaf (.punct .leftParen)) (.cons harguments (.last (.leaf (.punct .rightParen)))))
  have hcall := Derives.of_rule (A := .procedureCall) 58 rfl (.cons hname (.last hparameters))
  exact ⟨_, .of_single 52 rfl hcall⟩

open Grammar in
theorem derives_literalProgram (text : String) :
    ∃ d, Grammar.IsDerivation (literalSource text) d (literalProgram text) := by
  obtain ⟨dname, hname⟩ := derives_name "P"
  obtain ⟨dstmt, hstmt⟩ := derives_writeLiteral text
  have hheading := Derives.of_rule (A := .programHeading) 1 rfl
    (.cons (.leaf (.keyword .program)) (.last hname))
  have hsequence : Derives rules _ (phrase .sequence) _ [writeLiteral text] :=
    .of_single 37 rfl (Derives.of_single (A := .item) 39 rfl (Derives.of_single (A := .statement) 42 rfl hstmt))
  have hcompound := Derives.of_rule (A := .compound) 36 rfl
    (.cons (.leaf (.keyword .begin)) (.cons hsequence (.last (.leaf (.keyword .end)))))
  have hfunctions : Derives rules _ (phrase .functionPart) [] ([] : List FunctionDecl) := .of_rule 7 rfl (.nil _)
  have hvariables : Derives rules _ (phrase .variablePart) [] ([] : List VarDecl) := .of_rule 24 rfl (.nil _)
  have hblock := Derives.of_rule (A := .block) 6 rfl (.cons hfunctions (.cons hvariables (.last hcompound)))
  have hprogram := Derives.of_rule (A := .program) 0 rfl
    (.cons hheading (.cons (.leaf (.punct .semicolon)) (.cons hblock (.last (.leaf (.punct .dot))))))
  unfold Grammar.IsDerivation
  rw [tokens_literalSource]
  exact ⟨_, hprogram⟩

/-! ## the code and its run -/

/-- The code of a program that writes one constant. -/
def literalCode (push : Op String) (write : Basic) : List Line :=
  emit [.jump "main"] ++ [.label "main"] ++ emitBasic [.start] ++ emit [push] ++ emitBasic [write] ++ emitBasic [.stop]

theorem compileTree_char (c : Char) :
    compileTree ⟨"P", [], .mk [] [] [.call "write" [.value (.constant (.char c))]]⟩
      = .ok (literalCode (.pushi (Int64.ofNat c.toNat)) .writechr) := rfl

theorem compileTree_string (s : String) :
    compileTree ⟨"P", [], .mk [] [] [.call "write" [.value (.constant (.string s))]]⟩
      = .ok (literalCode (.pushs s) .writes) := rfl

theorem character?_ofNat (c : Char) : character? (Int64.ofNat c.toNat) = some c := by
  have hlt : c.toNat < 2 ^ 63 := Nat.lt_trans c.val.toNat_lt (by decide)
  have hint : (Int64.ofNat c.toNat).toInt = c.toNat := Int64.toInt_ofNat_of_lt hlt
  unfold character?
  rw [hint, Int.toNat_natCast, if_pos ⟨Int.natCast_nonneg _, c.valid⟩, Char.ofNat_toNat]

theorem written_character (c : Char) :
    Basic.writechr.written (.integer (Int64.ofNat c.toNat)) = .ok (String.singleton c) := by
  simp only [Basic.written, Value.toInteger, bind, Except.bind, character?_ofNat]
  rfl

theorem execute_of_run {text : String} {img : Image} {input : List UInt8} {k : Nat} {t : State}
    (hload : load text = .ok img) (hk : k ≤ usualLimit)
    (hrun : runFrom img.code k 0 (.initial input) = (.finished, t)) :
    execute text input = .ok t.output := by
  obtain ⟨j, hj⟩ := Nat.exists_eq_add_of_le hk
  have hall : runFrom img.code usualLimit 0 (.initial input) = (.finished, t) := by
    rw [hj]
    exact runFrom_done hrun rfl j
  have hend : run img.code (some usualLimit) (.initial input) = (none, t) := by
    simp only [run, Option.getD_some, hall]
    rfl
  unfold execute
  rw [hload]
  simp only [bind, Except.bind, hend]
  rfl

/-- A run under the usual limit that does not end by itself. -/
theorem execute_of_fault {text : String} {img : Image} {input : List UInt8} {status : Status} {f : Fault}
    {t : State} (hload : load text = .ok img)
    (hrun : runFrom img.code usualLimit 0 (.initial input) = (status, t))
    (hfault : status.fault? usualLimit = some f) : execute text input = .error f := by
  have hend : run img.code (some usualLimit) (.initial input) = (some f, t) := by
    simp only [run, Option.getD_some, hrun, hfault]
  unfold execute
  rw [hload]
  simp only [bind, Except.bind, hend]
  rfl

theorem execute_of_failed {text : String} {img : Image} {input : List UInt8} {k : Nat} {f : Fault} {t : State}
    (hload : load text = .ok img) (hk : k ≤ usualLimit)
    (hrun : runFrom img.code k 0 (.initial input) = (.failed f, t)) : execute text input = .error f := by
  obtain ⟨j, hj⟩ := Nat.exists_eq_add_of_le hk
  have hall : runFrom img.code usualLimit 0 (.initial input) = (.failed f, t) := by
    rw [hj]
    exact runFrom_done hrun rfl j
  exact execute_of_fault hload hall rfl

theorem literalCode_loads {push : Op String} (write : Basic) (htarget : push.target? = none) :
    ∃ img q, load (codeText (literalCode push write)) = .ok img ∧
      Placed img.code img.target? 0 (literalCode push write) q := by
  have hlabels : labelsOf (literalCode push write) = ["main"] := rfl
  have htargets : targetsOf (literalCode push write) = ["main"] := by
    simp only [literalCode, targetsOf_append, targetsOf_emit, emitBasic, targetsOf_label, List.filterMap_cons,
      htarget]
    rfl
  have hmain : IsWord "main" := IsName.isWord ⟨by decide, List.all_eq_true.mp (by decide)⟩
  refine load_codeText (by simp [literalCode]) (fun line hline => ⟨fun l hl => ?_, fun t ht => ?_⟩) ?_ ?_
  · have hmem : l ∈ labelsOf (literalCode push write) := List.mem_filterMap.mpr ⟨line, hline, hl⟩
    rw [hlabels] at hmem
    exact List.mem_singleton.mp hmem ▸ hmain
  · have hmem : t ∈ targetsOf (literalCode push write) := List.mem_filterMap.mpr ⟨line, hline, ht⟩
    rw [htargets] at hmem
    exact List.mem_singleton.mp hmem ▸ hmain
  · rw [hlabels]
    exact List.nodup_singleton _
  · rw [hlabels, htargets]
    exact fun t ht => ht

/-- If one instruction pushes a value and the next one writes it, the code of a literal writes it. -/
theorem execute_literalCode {push : Op String} {o : Op Nat} {write : Basic} {v : Value} {text : String}
    (hfits : push.fits = true) (htarget : push.target? = none)
    (hresolve : ∀ targets, push.resolve? targets = some o)
    (hpush : ∀ p s, o.exec p s = .ok (.goto (p + 1)) { s with stack := v :: s.stack })
    (hwriting : write.isWriting = true) (hwritten : write.written v = .ok text)
    (input : List UInt8) : execute (codeText (literalCode push write)) input = .ok text := by
  obtain ⟨img, q, hload, hplaced⟩ := literalCode_loads write htarget
  simp only [literalCode, placed_append] at hplaced
  obtain ⟨q₅, ⟨q₄, ⟨q₃, ⟨q₂, ⟨q₁, hjump, hlabel⟩, hstart⟩, hop⟩, hbasic⟩, hstop⟩ := hplaced
  obtain ⟨hmain, rfl⟩ := hlabel.label
  obtain ⟨hjump', rfl⟩ := hjump.single
  obtain ⟨hstart', rfl⟩ := hstart.basic
  obtain ⟨hop', rfl⟩ := hop.single
  obtain ⟨hbasic', rfl⟩ := hbasic.basic
  obtain ⟨hstop', -⟩ := hstop.basic
  obtain ⟨j, hj, hjump'⟩ := hjump' rfl
  obtain ⟨o', ho', hop'⟩ := hop' hfits
  rw [hresolve] at ho'
  cases ho'
  rw [Op.resolve?, hmain] at hj
  cases hj
  have hwrite : ∀ p s, s.stack = [v] → (Op.basic write).exec p s = .ok (.goto (p + 1)) (s.printed [] text) := by
    intro p s hs
    have hleaves := leaves_written hwriting hs
    rw [hwritten] at hleaves
    rw [exec_plain (by cases write <;> first | rfl | cases hwriting)]
    exact EStateM.bind_of_ok hleaves
  have hrun : runFrom img.code 5 0 (.initial input) = (.finished, { State.initial input with output := text }) := by
    rw [runFrom, step_of_ok hjump' rfl]
    show runFrom img.code 4 (0 + 1) _ = _
    rw [runFrom, step_of_ok hstart' rfl]
    show runFrom img.code 3 (0 + 1 + 1) _ = _
    rw [runFrom, step_of_ok hop' (hpush _ _)]
    show runFrom img.code 2 (0 + 1 + 1 + 1) _ = _
    rw [runFrom, step_of_ok hbasic' (hwrite _ _ rfl)]
    show runFrom img.code 1 (0 + 1 + 1 + 1 + 1) _ = _
    rw [runFrom, step_stop hstop']
    simp [State.initial, State.printed]
  exact execute_of_run hload (by decide) hrun

/-- **Literals come out as they went in.**  Any text, written as a literal with its quotes doubled, is
what the program prints that consists of nothing but writing it, whatever its input. -/
theorem execute_literalSource (text : String) : ∃ code, compile (literalSource text) = .ok code ∧
    ∀ input, execute (codeText code) input = .ok text := by
  obtain ⟨d, hd⟩ := derives_literalProgram text
  have htree := accepted_eq_ok_iff.mpr (parse_eq_intact_iff_derivation.mpr ⟨d, hd⟩)
  unfold literalProgram writeLiteral Constant.ofLiteral at htree
  split at htree
  · rename_i c hc
    refine ⟨_, compile_eq_ok_iff.mpr ⟨_, htree, compileTree_char c⟩, fun input => ?_⟩
    have htext : text = String.singleton c := by
      rw [← String.toList_inj, hc, String.toList_singleton]
    rw [htext]
    exact execute_literalCode rfl rfl (fun _ => rfl) (fun _ _ => rfl) rfl (written_character c) input
  · exact ⟨_, compile_eq_ok_iff.mpr ⟨_, htree, compileTree_string text⟩,
      execute_literalCode rfl rfl (fun _ => rfl) (fun _ _ => rfl) rfl rfl⟩

end PascalStack

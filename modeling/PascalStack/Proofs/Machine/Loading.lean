import PascalStack.Proofs.Compiler.Labels
import PascalStack.Proofs.Machine.Placed
import PascalStack.Proofs.Number.Literal
import PascalStack.Session

/-!
# Loading the text of code

* `IsWord`            text without blanks and slashes, which can be a label;
* `Line.Readable`     lines that are read back from their texts, `readEntry_text`;
* `listing`, `positions`   the instructions and the labels of lines of code;
* `decode_op`         an instruction is what it was before it was written;
* `imageOf`           the image of lines of code, `load_eq_imageOf`;
* `load_codeText`     the text of code can be loaded, and then all its lines are in their places.
-/

namespace PascalStack

/-- Text without blanks and slashes. -/
structure IsWord (name : String) : Prop where
  nonempty : name.toList ≠ []
  plain : ∀ c ∈ name.toList, Text.isBlank c = false ∧ c ≠ '/'

theorem IsWord.solid {name : String} (h : IsWord name) : Text.Solid name.toList :=
  .of_word h.nonempty fun c hc => (h.plain c hc).1

theorem isBlank_newline : Text.isBlank '\n' = true := by decide

theorem newline_not_mem {cs : List Char} (h : ∀ c ∈ cs, Text.isBlank c = false) : '\n' ∉ cs := by
  intro hmem
  have hblank := h _ hmem
  rw [isBlank_newline] at hblank
  cases hblank

/-! ## one line -/

/-- A line whose labels are words. -/
def Line.Readable (line : Line) : Prop :=
  (∀ l, line.label? = some l → IsWord l) ∧ ∀ t, line.target? = some t → IsWord t

theorem Op.solid_operand {o : Op String} (h : ∀ t, o.target? = some t → IsWord t) {text : String}
    (ht : o.operand = some text) : Text.Solid text.toList ∧ '\n' ∉ text.toList := by
  have hnat : ∀ n, Text.Solid (naturalText n).toList ∧ '\n' ∉ (naturalText n).toList := fun n =>
    ⟨Text.solid_naturalText n, fun hmem => absurd (isDigit_of_mem_naturalText hmem) (by decide)⟩
  have hslot : ∀ slot : Option Nat, slot.map naturalText = some text →
      Text.Solid text.toList ∧ '\n' ∉ text.toList := by
    rintro (_ | n) hn <;> cases hn
    exact hnat n
  have hword : ∀ t : String, t.toList ≠ [] → (∀ c ∈ t.toList, Text.isBlank c = false) →
      Text.Solid t.toList ∧ '\n' ∉ t.toList := by
    intro t hne hblank
    exact ⟨.of_word hne hblank, newline_not_mem hblank⟩
  have hlabel : ∀ t, IsWord t → Text.Solid t.toList ∧ '\n' ∉ t.toList := fun t hw =>
    hword t hw.nonempty fun c hc => (hw.plain c hc).1
  cases o with
  | pushi n => cases ht; exact hword _ (integerText_ne_nil n) fun _ => Text.isBlank_integerText
  | pushf x =>
    cases ht
    exact hword _ (Double.literal_ne_nil x) fun _ => Double.isBlank_literal
  | pushs s =>
    cases ht
    exact ⟨Code.solid_quote s, Code.newline_not_mem_quote s⟩
  | pushn count => cases ht; exact hnat count
  | pushg slot => exact hslot slot ht
  | pusha label => cases ht; exact hlabel _ (h _ rfl)
  | storeg slot => exact hslot slot ht
  | load offset => cases ht; exact hnat offset
  | pop count => cases ht; exact hnat count
  | dup count => cases ht; exact hnat count
  | jump label => cases ht; exact hlabel _ (h _ rfl)
  | jz label => cases ht; exact hlabel _ (h _ rfl)
  | basic b => cases ht

/-- What the name of an instruction is made of. -/
def isOpcodePart (c : Char) : Bool := c.toLower = c && !Text.isBlank c && c ≠ ':' && c ≠ '/'

theorem Opcode.name_parts (o : Opcode) :
    o.name.toList.isEmpty = false ∧ o.name.toList.all isOpcodePart = true := by
  cases o with
  | basic b =>
    cases b with
    | arith a => cases a <;> decide
    | realArith a => cases a <;> decide
    | order a => cases a <;> decide
    | realOrder a => cases a <;> decide
    | _ => decide
  | _ => decide

/-- The name of an instruction is a word in small letters. -/
theorem Opcode.name_letters (o : Opcode) : o.name.toList ≠ [] ∧
    ∀ c ∈ o.name.toList, c.toLower = c ∧ Text.isBlank c = false ∧ c ≠ ':' ∧ c ≠ '/' := by
  obtain ⟨hne, hparts⟩ := o.name_parts
  refine ⟨List.isEmpty_eq_false_iff.mp hne, fun c hc => ?_⟩
  have hpart := List.all_eq_true.mp hparts c hc
  simp only [isOpcodePart, Bool.and_eq_true, decide_eq_true_eq, Bool.not_eq_true'] at hpart
  exact ⟨hpart.1.1.1, hpart.1.1.2, hpart.1.2, hpart.2⟩

theorem Opcode.ofName?_name (o : Opcode) : Opcode.ofName? o.name = some o := by
  cases o with
  | basic b =>
    cases b with
    | arith a => cases a <;> decide
    | realArith a => cases a <;> decide
    | order a => cases a <;> decide
    | realOrder a => cases a <;> decide
    | _ => decide
  | _ => decide

theorem beforeColon?_append (cs : List Char) : beforeColon? (cs ++ [':']) = some cs := by
  induction cs with
  | nil => rfl
  | cons c cs ih =>
    rw [List.cons_append, beforeColon?, ih]
    · rfl
    · intro _ h
      simp at h

/-- A line that is no comment. -/
theorem readEntry_of_solid {cs : List Char} (h : Text.Solid cs) (hslash : cs.head? ≠ some '/') :
    readEntry cs = match labelName? cs with | some name => .label name | none => readInstruction cs := by
  unfold readEntry
  rw [h.trim]
  split
  · obtain ⟨c, hc, _⟩ := h.first
    cases hc
  · exact absurd rfl hslash
  · rfl

theorem readEntry_label {name : String} (h : IsWord name) :
    readEntry (Line.label name).text.toList = .label name := by
  have htext : (Line.label name).text.toList = name.toList ++ [':'] := String.toList_append
  rw [htext]
  obtain ⟨c, hc, hblank⟩ := h.solid.first
  have hfirst : (name.toList ++ [':']).head? = some c := by
    rw [List.head?_append, hc]
    rfl
  have hsolid : Text.Solid (name.toList ++ [':']) :=
    ⟨⟨c, hfirst, hblank⟩, ':', List.getLast?_concat .., by decide⟩
  rw [readEntry_of_solid hsolid (fun h' => ?_)]
  · have hany : name.toList.any Text.isBlank = false := by
      refine List.any_eq_false.mpr fun c hc => ?_
      rw [(h.plain c hc).1]
      decide
    unfold labelName?
    rw [beforeColon?_append, Option.bind_some, hany, if_neg (by decide), String.ofList_toList]
  · rw [hfirst] at h'
    cases h'
    exact (h.plain '/' (List.mem_of_mem_head? hc)).2 rfl

theorem beforeColon?_eq_some {cs name : List Char} (h : beforeColon? cs = some name) :
    cs = name ++ [':'] := by
  fun_induction beforeColon? cs generalizing name with
  | case1 => cases h
  | case2 => cases h; rfl
  | case3 c cs _ ih =>
    obtain ⟨r, hr, rfl⟩ := Option.map_eq_some_iff.mp h
    rw [ih hr]
    rfl

/-- A line with a space or without a colon is no label. -/
theorem labelName?_eq_none {cs : List Char} (h : ' ' ∈ cs ∨ ':' ∉ cs) : labelName? cs = none := by
  unfold labelName?
  cases hcolon : beforeColon? cs with
  | none => rfl
  | some name =>
    have hcs := beforeColon?_eq_some hcolon
    rw [Option.bind_some]
    rcases h with h | h
    · rw [hcs] at h
      have hmem : ' ' ∈ name := by simpa using h
      rw [if_pos (List.any_eq_true.mpr ⟨' ', hmem, by decide⟩)]
    · rw [hcs] at h
      simp at h

theorem readInstruction_word {word : List Char} (rest : List Char) (h : ∀ c ∈ word, Text.isBlank c = false)
    (hrest : ∀ c cs, rest = c :: cs → Text.isBlank c = true) :
    readInstruction (word ++ rest) = .instruction (String.ofList (word.map Char.toLower))
      (match rest with | [] => none | _ :: r => some (String.ofList (Text.trim r))) := by
  have hword : ∀ c ∈ word, (!Text.isBlank c) = true := by
    intro c hc
    rw [h c hc]
    rfl
  have htake : rest.takeWhile (fun c => !Text.isBlank c) = [] ∧
      rest.dropWhile (fun c => !Text.isBlank c) = rest := by
    cases rest with
    | nil => exact ⟨rfl, rfl⟩
    | cons c cs => rw [List.takeWhile_cons, List.dropWhile_cons, hrest c cs rfl]; exact ⟨rfl, rfl⟩
  unfold readInstruction
  rw [List.takeWhile_append_of_pos hword, List.dropWhile_append_of_pos hword, htake.1, htake.2,
    List.append_nil]
  cases rest <;> rfl

theorem readEntry_op {o : Op String} (h : ∀ t, o.target? = some t → IsWord t) :
    readEntry o.text.toList = .instruction o.name o.operand := by
  obtain ⟨hne, hletters⟩ := o.opcode.name_letters
  rw [show o.opcode.name = o.name from rfl] at hne hletters
  have hblank : ∀ c ∈ o.name.toList, Text.isBlank c = false := fun c hc => (hletters c hc).2.1
  have hlower : String.ofList (o.name.toList.map Char.toLower) = o.name := by
    rw [List.map_congr_left fun c hc => (hletters c hc).1, List.map_id', String.ofList_toList]
  obtain ⟨c, hc, hcb⟩ := (Text.Solid.of_word hne hblank).first
  have hslash : c ≠ '/' := (hletters c (List.mem_of_mem_head? hc)).2.2.2
  unfold Op.text
  cases hop : o.operand with
  | none =>
    have hcolon : ':' ∉ o.name.toList := fun hmem => (hletters _ hmem).2.2.1 rfl
    show readEntry o.name.toList = _
    rw [readEntry_of_solid (.of_word hne hblank) (by rw [hc]; simpa using hslash),
      labelName?_eq_none (.inr hcolon)]
    have hread := readInstruction_word [] hblank nofun
    rw [List.append_nil] at hread
    simp only [hread, hlower]
  | some text =>
    obtain ⟨hsolid, -⟩ := Op.solid_operand h hop
    have htext : (o.name ++ " " ++ text).toList = o.name.toList ++ ' ' :: text.toList := by
      simp [String.toList_append]
    have hfirst : (o.name.toList ++ ' ' :: text.toList).head? = some c := by
      rw [List.head?_append, hc]
      rfl
    have hline : Text.Solid (o.name.toList ++ ' ' :: text.toList) := by
      obtain ⟨d, hd, hdb⟩ := hsolid.last
      refine ⟨⟨c, hfirst, hcb⟩, d, ?_, hdb⟩
      rw [List.getLast?_append, List.getLast?_cons, hd]
      rfl
    have hread := readInstruction_word (' ' :: text.toList) hblank
      (fun c cs h => by cases h; decide)
    simp only [htext]
    rw [readEntry_of_solid hline (by rw [hfirst]; simpa using hslash),
      labelName?_eq_none (.inl (by simp))]
    simp only [hread, hlower, hsolid.trim, String.ofList_toList]

/-! ## all lines -/

theorem newline_not_mem_text {line : Line} (h : line.Readable) : '\n' ∉ line.text.toList := by
  cases line with
  | label name =>
    have hword : IsWord name := h.1 name rfl
    have hname : '\n' ∉ name.toList := newline_not_mem fun c hc => (hword.plain c hc).1
    show '\n' ∉ (name ++ ":").toList
    rw [String.toList_append]
    simpa using hname
  | op o =>
    have hname : '\n' ∉ o.name.toList := newline_not_mem fun c hc => (o.opcode.name_letters.2 c hc).2.1
    show '\n' ∉ o.text.toList
    unfold Op.text
    cases hop : o.operand with
    | none => exact hname
    | some text =>
      have htext := (Op.solid_operand h.2 hop).2
      simp [String.toList_append, hname, htext]

theorem Text.lines_eq_singleton {cs : List Char} (h : '\n' ∉ cs) : lines cs = [cs] := by
  induction cs with
  | nil => rfl
  | cons c cs ih =>
    rw [List.mem_cons, not_or] at h
    show consLine c (lines cs) = _
    rw [ih h.2]
    unfold consLine
    rw [if_neg (Ne.symm h.1)]

theorem Text.lines_append {cs rest : List Char} (h : '\n' ∉ cs) :
    lines (cs ++ '\n' :: rest) = cs :: lines rest := by
  induction cs with
  | nil => rfl
  | cons c cs ih =>
    rw [List.mem_cons, not_or] at h
    show consLine c (lines (cs ++ '\n' :: rest)) = _
    rw [ih h.2]
    unfold consLine
    rw [if_neg (Ne.symm h.1)]

theorem lines_intercalate {ls : List (List Char)} (hne : ls ≠ []) (h : ∀ l ∈ ls, '\n' ∉ l) :
    Text.lines (['\n'].intercalate ls) = ls := by
  induction ls with
  | nil => exact absurd rfl hne
  | cons l ls ih =>
    have hl := h l (List.mem_cons_self ..)
    cases ls with
    | nil => simpa using Text.lines_eq_singleton hl
    | cons l' ls =>
      rw [List.intercalate_cons_cons, List.append_assoc, List.singleton_append]
      rw [Text.lines_append hl, ih (List.cons_ne_nil _ _) fun l hl => h l (List.mem_cons_of_mem _ hl)]

theorem lines_codeText {code : List Line} (hne : code ≠ []) (h : ∀ line ∈ code, line.Readable) :
    Text.lines (codeText code).toList = code.map (·.text.toList) := by
  unfold codeText
  rw [String.toList_intercalate, List.map_map]
  refine lines_intercalate (by simpa using hne) fun l hl => ?_
  obtain ⟨line, hline, rfl⟩ := List.mem_map.mp hl
  exact newline_not_mem_text (h line hline)

/-! ## the image -/

/-- The instructions of lines of code, the first of which has the given number. -/
def listing : (number : Nat) → List Line → List Instruction
  | _, [] => []
  | number, .label _ :: rest => listing (number + 1) rest
  | number, .op o :: rest => ⟨o.opcode, o.operand, number⟩ :: listing (number + 1) rest

def positions : (p : Nat) → List Line → List (String × Nat)
  | _, [] => []
  | p, .label name :: rest => (name, p) :: positions p rest
  | p, .op _ :: rest => positions (p + 1) rest

theorem positions_names (p : Nat) (code : List Line) : (positions p code).map Prod.fst = labelsOf code := by
  induction code generalizing p with
  | nil => rfl
  | cons line rest ih =>
    cases line with
    | label name => rw [positions, List.map_cons, ih]; rfl
    | op o => rw [positions, ih]; rfl

theorem addAll_lines {code : List Line} (h : ∀ line ∈ code, line.Readable) (img : Image)
    (number : Nat) :
    img.addAll number (code.map (·.text.toList)) =
      .ok ⟨img.instructions ++ (listing number code).toArray,
        (positions img.instructions.size code).reverse ++ img.labels⟩ := by
  induction code generalizing img number with
  | nil => simp [Image.addAll, listing, positions]
  | cons line rest ih =>
    have hline := h line (List.mem_cons_self ..)
    have hrest := ih fun line hl => h line (List.mem_cons_of_mem _ hl)
    rw [List.map_cons, Image.addAll]
    cases line with
    | label name =>
      rw [Image.add, readEntry_label (hline.1 name rfl)]
      simp [hrest, listing, positions]
    | op o =>
      rw [Image.add, show (Line.op o).text = o.text from rfl, readEntry_op hline.2]
      simp only [Op.name, Opcode.ofName?_name]
      rw [hrest]
      simp [listing, positions]

/-- Among distinct keys, every entry is found. -/
theorem lookup_of_mem {α : Type} {entries : List (String × α)} (hn : (entries.map Prod.fst).Nodup)
    {name : String} {a : α} (h : (name, a) ∈ entries) : entries.lookup name = some a := by
  induction entries with
  | nil => cases h
  | cons e rest ih =>
    rw [List.map_cons, List.nodup_cons] at hn
    obtain ⟨key, b⟩ := e
    rcases List.mem_cons.mp h with he | hrest
    · cases he
      rw [List.lookup_cons_self]
    · have hne : name ≠ key := by
        rintro rfl
        exact hn.1 (List.mem_map.mpr ⟨_, hrest, rfl⟩)
      rw [List.lookup_cons, beq_false_of_ne hne]
      exact ih hn.2 hrest

theorem Instruction.parsed_of_eq {α : Type} {opcode : Opcode} {text : String} {number : Nat}
    {read? : String → Option α} {a : α} (h : read? text = some a) :
    (⟨opcode, some text, number⟩ : Instruction).parsed read? = .ok a := by
  unfold Instruction.parsed Instruction.required
  simp only [bind, Except.bind, h]
  rfl

theorem Instruction.parsed_natural {opcode : Opcode} {n number : Nat} (h : n < wordSize) :
    (⟨opcode, some (naturalText n), number⟩ : Instruction).parsed (fun t => unsigned? t.toList) = .ok n :=
  Instruction.parsed_of_eq (unsigned?_naturalText h)

theorem Instruction.slot_of_lt {opcode : Opcode} {slot : Option Nat} {number : Nat}
    (h : ∀ n, slot = some n → n < wordSize) :
    (⟨opcode, slot.map naturalText, number⟩ : Instruction).slot = .ok slot := by
  cases slot with
  | none => rfl
  | some n =>
    show ((⟨opcode, some (naturalText n), number⟩ : Instruction).parsed _
      >>= fun k => pure (some k) : Except Fault (Option Nat)) = _
    rw [Instruction.parsed_natural (h n rfl)]
    rfl

theorem Image.targetOf_eq {img : Image} {opcode : Opcode} {label : String} {number q : Nat}
    (h : img.target? label = some q) : img.targetOf ⟨opcode, some label, number⟩ = .ok q := by
  unfold Image.targetOf Instruction.required
  simp only [bind, Except.bind, h]
  rfl

/-- An instruction is what it was before it was written. -/
theorem decode_op {img : Image} {o : Op String} {number : Nat} (hfits : o.fits = true)
    (ht : ∀ t, o.target? = some t → ∃ q, img.target? t = some q) :
    ∃ o', o.resolve? img.target? = some o' ∧
      img.decode ⟨o.opcode, o.operand, number⟩ = .ok o' := by
  cases o with
  | pushi n =>
    refine ⟨_, rfl, ?_⟩
    simp only [Image.decode, Op.opcode, Op.operand]
    rw [Instruction.parsed_of_eq (signed?_integerText n)]
    rfl
  | pushf x =>
    refine ⟨_, rfl, ?_⟩
    simp only [Image.decode, Op.opcode, Op.operand]
    rw [Instruction.parsed_of_eq (Double.read?_literal x)]
    rfl
  | pushs s =>
    refine ⟨_, rfl, ?_⟩
    simp only [Image.decode, Op.opcode, Op.operand]
    rw [Instruction.parsed_of_eq (Code.quoted?_quote s)]
    rfl
  | pushn count =>
    have hcount : count ≤ maxGlobals := of_decide_eq_true hfits
    refine ⟨_, rfl, ?_⟩
    simp only [Image.decode, Op.opcode, Op.operand, Instruction.zeros]
    rw [Instruction.parsed_natural (Nat.lt_of_le_of_lt hcount (by decide))]
    show ((if maxGlobals < count then throw _ else pure count) >>= _ : Except Fault (Op Nat)) = _
    rw [if_neg (Nat.not_lt.mpr hcount)]
    rfl
  | pushg slot =>
    refine ⟨_, rfl, ?_⟩
    simp only [Image.decode, Op.opcode, Op.operand]
    rw [Instruction.slot_of_lt fun n hn => by subst hn; exact of_decide_eq_true hfits]
    rfl
  | storeg slot =>
    refine ⟨_, rfl, ?_⟩
    simp only [Image.decode, Op.opcode, Op.operand]
    rw [Instruction.slot_of_lt fun n hn => by subst hn; exact of_decide_eq_true hfits]
    rfl
  | load offset =>
    refine ⟨_, rfl, ?_⟩
    simp only [Image.decode, Op.opcode, Op.operand]
    rw [Instruction.parsed_natural (of_decide_eq_true hfits)]
    rfl
  | pop count =>
    refine ⟨_, rfl, ?_⟩
    simp only [Image.decode, Op.opcode, Op.operand, Instruction.count, Option.isSome_some, if_true]
    rw [Instruction.parsed_natural (of_decide_eq_true hfits)]
    rfl
  | dup count =>
    refine ⟨_, rfl, ?_⟩
    simp only [Image.decode, Op.opcode, Op.operand, Instruction.count, Option.isSome_some, if_true]
    rw [Instruction.parsed_natural (of_decide_eq_true hfits)]
    rfl
  | pusha label =>
    obtain ⟨q, hq⟩ := ht label rfl
    refine ⟨.pusha q, by rw [Op.resolve?, hq]; rfl, ?_⟩
    simp only [Image.decode, Op.opcode, Op.operand]
    rw [Image.targetOf_eq hq]
    rfl
  | jump label =>
    obtain ⟨q, hq⟩ := ht label rfl
    refine ⟨.jump q, by rw [Op.resolve?, hq]; rfl, ?_⟩
    simp only [Image.decode, Op.opcode, Op.operand]
    rw [Image.targetOf_eq hq]
    rfl
  | jz label =>
    obtain ⟨q, hq⟩ := ht label rfl
    refine ⟨.jz q, by rw [Op.resolve?, hq]; rfl, ?_⟩
    simp only [Image.decode, Op.opcode, Op.operand]
    rw [Image.targetOf_eq hq]
    rfl
  | basic b => exact ⟨_, rfl, rfl⟩

theorem checkTarget_op {img : Image} {o : Op String} {number : Nat}
    (ht : ∀ t, o.target? = some t → ∃ q, img.target? t = some q) :
    img.checkTarget ⟨o.opcode, o.operand, number⟩ = .ok () := by
  cases o with
  | pusha label | jump label | jz label =>
    obtain ⟨q, hq⟩ := ht label rfl
    simp only [Image.checkTarget, Op.opcode, Op.operand]
    rw [Image.targetOf_eq hq]
    rfl
  | _ => rfl

theorem mem_targetsOf {code : List Line} {o : Op String} {t : String} (ho : .op o ∈ code)
    (ht : o.target? = some t) : t ∈ targetsOf code :=
  List.mem_filterMap.mpr ⟨_, ho, ht⟩

theorem checkTargets_listing {img : Image} {code : List Line} {number : Nat}
    (ht : ∀ t ∈ targetsOf code, ∃ q, img.target? t = some q) :
    img.checkTargets (listing number code) = .ok () := by
  induction code generalizing number with
  | nil => rfl
  | cons line rest ih =>
    have hrest := fun number => @ih number fun t h => ht t (targetsOf_append [line] rest ▸ List.mem_append_right _ h)
    cases line with
    | label name => exact hrest _
    | op o =>
      rw [listing, Image.checkTargets, checkTarget_op fun t h => ht t (mem_targetsOf (List.mem_cons_self ..) h)]
      exact hrest _

/-- Lines whose instructions and labels are those of an image are in their places. -/
theorem placed_listing {img : Image} {code : List Line} {p number : Nat}
    (hcode : ∀ i j, (listing number code)[i]? = some j → img.instructions[p + i]? = some j)
    (hlabels : ∀ name q, (name, q) ∈ positions p code → img.target? name = some q)
    (ht : ∀ t ∈ targetsOf code, ∃ q, img.target? t = some q) :
    ∃ q, Placed img.code img.target? p code q := by
  induction code generalizing p number with
  | nil => exact ⟨p, rfl⟩
  | cons line rest ih =>
    have htrest : ∀ t ∈ targetsOf rest, ∃ q, img.target? t = some q := fun t h =>
      ht t (targetsOf_append [line] rest ▸ List.mem_append_right _ h)
    cases line with
    | label name =>
      obtain ⟨q, hq⟩ := ih hcode (fun name q h => hlabels name q (List.mem_cons_of_mem _ h)) htrest
      exact ⟨q, hlabels name p (List.mem_cons_self ..), hq⟩
    | op o =>
      obtain ⟨q, hq⟩ := @ih (p + 1) (number + 1) (fun i j h => by
        rw [Nat.add_assoc, Nat.add_comm 1 i]
        exact hcode (i + 1) j h) hlabels htrest
      refine ⟨q, fun hfits => ?_, hq⟩
      obtain ⟨o', hres, hdec⟩ := @decode_op img o number hfits fun t h =>
        ht t (mem_targetsOf (List.mem_cons_self ..) h)
      have hinstr : img.instructions[p]? = some ⟨o.opcode, o.operand, number⟩ := hcode 0 _ rfl
      refine ⟨o', hres, ?_⟩
      unfold Image.code
      rw [Array.getElem?_map, hinstr, Option.map_some, hdec]

def imageOf (code : List Line) : Image := ⟨(listing 1 code).toArray, (positions 0 code).reverse⟩

/-- A label that is defined has a position. -/
theorem target?_imageOf {code : List Line} {name : String} (h : name ∈ labelsOf code) :
    ∃ q, (imageOf code).target? name = some q := by
  have hkeys : name ∈ (positions 0 code).reverse.map Prod.fst := by
    rw [List.map_reverse, positions_names]
    exact List.mem_reverse.mpr h
  obtain ⟨⟨_, q⟩, he, rfl⟩ := List.mem_map.mp hkeys
  cases hlook : (imageOf code).target? _ with
  | some q' => exact ⟨q', rfl⟩
  | none =>
    have hne := List.lookup_eq_none_iff.mp hlook _ he
    simp at hne

/-- The text of code can be loaded if all its targets are defined. -/
theorem load_eq_imageOf {code : List Line} (hne : code ≠ []) (hread : ∀ line ∈ code, line.Readable)
    (ht : ∀ t ∈ targetsOf code, t ∈ labelsOf code) : load (codeText code) = .ok (imageOf code) := by
  have hadd : Image.empty.addAll 1 (Text.lines (codeText code).toList) = .ok (imageOf code) := by
    rw [lines_codeText hne hread, addAll_lines hread]
    simp [Image.empty, imageOf]
  unfold load
  rw [hadd]
  show ((imageOf code).checkTargets (listing 1 code) >>= fun _ => pure _ : Except Fault Image) = _
  rw [checkTargets_listing fun t h => target?_imageOf (ht t h)]
  rfl

/-- **The text of code can be loaded, and then all its lines are in their places.** -/
theorem load_codeText {code : List Line} (hne : code ≠ []) (hread : ∀ line ∈ code, line.Readable)
    (hnodup : (labelsOf code).Nodup) (ht : ∀ t ∈ targetsOf code, t ∈ labelsOf code) :
    ∃ img q, load (codeText code) = .ok img ∧ Placed img.code img.target? 0 code q := by
  have hlabels : ∀ name q, (name, q) ∈ positions 0 code → (imageOf code).target? name = some q := by
    intro name q h
    refine lookup_of_mem ?_ (List.mem_reverse.mpr h)
    rw [imageOf, List.map_reverse, positions_names]
    exact (List.reverse_perm _).nodup_iff.mpr hnodup
  have hcode : ∀ i j, (listing 1 code)[i]? = some j → (imageOf code).instructions[0 + i]? = some j := by
    intro i j h
    simpa [imageOf] using h
  obtain ⟨q, hq⟩ := placed_listing hcode hlabels fun t h => target?_imageOf (ht t h)
  exact ⟨_, q, load_eq_imageOf hne hread ht, hq⟩

end PascalStack

import Isolate.Proofs.Code.Encoding

/-!
# Listings

A listing shows one line for each instruction, and stops with one more line
where no whole instruction begins.  So it reads encoded instructions back, and
the instructions that it shows of other bytes are the longest sequence that they
begin with.
-/

namespace Isolate

namespace Instruction

/-- Bytes begin with one instruction at most. -/
theorem eq_of_begins {i j : Instruction} {bytes : List UInt8}
    (hi : i.bytes <+: bytes) (hj : j.bytes <+: bytes) : i = j := by
  have hsuffix : Code.suffix bytes.toArray 0 = bytes := rfl
  rw [← hsuffix] at hi hj
  obtain ⟨hop, hoperands⟩ := Code.decodes_iff.2 ⟨i.fits, hi⟩
  obtain ⟨hop', hoperands'⟩ := Code.decodes_iff.2 ⟨j.fits, hj⟩
  have hsame : i.op = j.op := Option.some.inj (hop.symm.trans hop')
  rw [← hsame] at hoperands'
  have hsame' : i.operands = j.operands :=
    Option.some.inj (hoperands.symm.trans hoperands')
  obtain ⟨op, operands, _⟩ := i
  obtain ⟨op', operands', _⟩ := j
  cases hsame
  cases hsame'
  rfl

end Instruction

namespace Code

variable {code : Code} {offset : Nat} {instructions others : List Instruction}
  {rest : List UInt8} {ending : List Line}

/-- The lines of instructions that follow each other from an offset on. -/
def linesFrom (offset : Nat) : List Instruction → List Line
  | [] => []
  | i :: rest => .instruction offset i.op i.operands ::
      linesFrom (offset + i.bytes.length) rest

/-- How a listing ends at an offset, by the bytes that are left there. -/
inductive Ending (offset : Nat) : List UInt8 → List Line → Prop
  | complete : Ending offset [] []
  | invalid {byte : UInt8} {rest : List UInt8}
      (h : Opcode.ofByte? byte = none) :
    Ending offset (byte :: rest) [.invalid offset byte]
  | truncated {op : Opcode} {rest : List UInt8}
      (h : rest.length + 1 < op.length) :
    Ending offset (op.byte :: rest) [.truncated offset op]

/-- A listing ends where no instruction begins. -/
theorem Ending.not_begins (h : Ending offset rest ending) (i : Instruction) :
    ¬i.bytes <+: rest := by
  intro hbegins
  cases h with
  | complete => cases List.prefix_nil.1 hbegins
  | invalid hbyte =>
    have hop := (List.cons_prefix_cons.1 hbegins).1
    rw [← hop, Opcode.ofByte?_byte] at hbyte
    cases hbyte
  | @truncated op rest hshort =>
    have hop : i.op.byte = op.byte := (List.cons_prefix_cons.1 hbegins).1
    have hsame : i.op = op := by
      apply Option.some.inj
      rw [← Opcode.ofByte?_byte i.op, hop, Opcode.ofByte?_byte]
    have hlength := hbegins.length_le
    rw [i.length_bytes, hsame, List.length_cons] at hlength
    omega

theorem Ending.eq_nil_iff (h : Ending offset rest ending) :
    ending = [] ↔ rest = [] := by
  cases h with
  | complete => exact iff_of_true rfl rfl
  | invalid => exact iff_of_false nofun nofun
  | truncated => exact iff_of_false nofun nofun

/-! ## One line -/

/-- Operands can be read where the code is long enough for them. -/
theorem exists_operandsAt? {widths : List Nat}
    (hwidths : ∀ width ∈ widths, width = 1 ∨ width = 2)
    (h : offset + widths.foldr (· + ·) 0 ≤ code.size) :
    ∃ operands, code.operandsAt? offset widths = some operands := by
  induction widths generalizing offset with
  | nil => exact ⟨[], rfl⟩
  | cons width widths ih =>
    rw [List.foldr_cons] at h
    have hrest :
        ∃ others, code.operandsAt? (offset + width) widths = some others :=
      ih (fun w hw => hwidths w (List.mem_cons_of_mem width hw)) (by omega)
    obtain ⟨others, hothers⟩ := hrest
    have hbyte : ∀ i, i < code.size → ∃ x, code.byteAt? i = some x := by
      intro i hi
      rw [byteAt?, Array.getElem?_eq_getElem hi]
      exact ⟨_, rfl⟩
    have hoperand :
        ∃ x, (if width = 1 then code.byteAt? offset else code.pairAt? offset) =
          some x := by
      rcases hwidths width List.mem_cons_self with rfl | rfl
      · exact hbyte offset (by omega)
      · obtain ⟨high, hhigh⟩ := hbyte offset (by omega)
        obtain ⟨low, hlow⟩ := hbyte (offset + 1) (by omega)
        refine ⟨high * 256 + low, ?_⟩
        rw [if_neg (by decide), pairAt?, hhigh, hlow]
        rfl
    obtain ⟨x, hx⟩ := hoperand
    rw [operandsAt?_cons, hx, Option.bind_some, hothers]
    exact ⟨x :: others, rfl⟩

theorem listingFrom_of_begins {i : Instruction}
    (h : i.bytes <+: code.suffix offset) :
    code.listingFrom offset =
      .instruction offset i.op i.operands ::
        code.listingFrom (offset + i.bytes.length) := by
  obtain ⟨hop, hoperands⟩ := decodes_iff.2 ⟨i.fits, h⟩
  obtain ⟨hlt, hbyte⟩ := opcodeAt?_eq_some_iff.1 hop
  rw [listingFrom, dif_pos hlt, i.length_bytes]
  simp only [hbyte, hoperands]

/-- Where no instruction begins, the listing has its last line. -/
theorem ending_of_not_begins
    (h : ∀ i : Instruction, ¬i.bytes <+: code.suffix offset) :
    Ending offset (code.suffix offset) (code.listingFrom offset) := by
  rw [listingFrom]
  by_cases hlt : offset < code.size
  · have hcons :
        code.suffix offset = code[offset] :: code.suffix (offset + 1) := by
      rw [suffix, suffix,
        List.drop_eq_getElem_cons (by rwa [Array.length_toList]),
        Array.getElem_toList]
    rw [dif_pos hlt, hcons]
    cases hbyte : Opcode.ofByte? code[offset] with
    | none => exact .invalid hbyte
    | some op =>
      have hop : code.opcodeAt? offset = some op :=
        opcodeAt?_eq_some_iff.2 ⟨hlt, hbyte⟩
      cases hoperands : code.operandsAt? (offset + 1) op.widths with
      | some operands =>
        obtain ⟨hfits, hbegins⟩ := decodes_iff.1 ⟨hop, hoperands⟩
        exact absurd hbegins (h ⟨op, operands, hfits⟩)
      | none =>
        dsimp only
        rw [hoperands, Opcode.ofByte?_eq_some_iff.1 hbyte]
        apply Ending.truncated
        rw [length_suffix, op.length_eq]
        by_contra hlong
        have hread : ∃ operands,
            code.operandsAt? (offset + 1) op.widths = some operands :=
          exists_operandsAt? op.width_eq (by omega)
        obtain ⟨operands, hsome⟩ := hread
        rw [hoperands] at hsome
        cases hsome
  · rw [dif_neg hlt, suffix_eq_nil_iff.2 (Nat.le_of_not_lt hlt)]
    exact .complete

/-! ## All lines -/

/-- A listing shows whole instructions up to where none begins. -/
theorem exists_listingFrom (code : Code) (offset : Nat) :
    ∃ instructions rest ending,
      code.suffix offset = instructions.flatMap Instruction.bytes ++ rest ∧
        Ending (offset + (instructions.flatMap Instruction.bytes).length)
          rest ending ∧
        code.listingFrom offset = linesFrom offset instructions ++ ending := by
  by_cases hbegins : ∃ i : Instruction, i.bytes <+: code.suffix offset
  · obtain ⟨i, hi⟩ := hbegins
    have hpos : 0 < i.bytes.length := i.length_bytes ▸ i.op.length_pos
    have hlength : i.bytes.length ≤ code.size - offset :=
      length_suffix code offset ▸ hi.length_le
    obtain ⟨instructions, rest, ending, hbytes, hending, hlines⟩ :=
      exists_listingFrom code (offset + i.bytes.length)
    obtain ⟨others, hothers⟩ := hi
    have hsuffix := suffix_of_eq_append hothers.symm
    rw [hbytes] at hsuffix
    refine ⟨i :: instructions, rest, ending, ?_, ?_, ?_⟩
    · rw [List.flatMap_cons, List.append_assoc, hsuffix, hothers]
    · rw [List.flatMap_cons, List.length_append, ← Nat.add_assoc]
      exact hending
    · rw [listingFrom_of_begins ⟨others, hothers⟩, hlines]
      rfl
  · rw [not_exists] at hbegins
    exact ⟨[], code.suffix offset, code.listingFrom offset, rfl,
      ending_of_not_begins hbegins, rfl⟩
termination_by code.size - offset
decreasing_by omega

/-- Nothing that the bytes begin with goes beyond the instructions before the
first place where none begins. -/
theorem begins_of_flatMap (hrest : ∀ i : Instruction, ¬i.bytes <+: rest)
    (h : others.flatMap Instruction.bytes <+:
      instructions.flatMap Instruction.bytes ++ rest) :
    others <+: instructions := by
  induction others generalizing instructions with
  | nil => exact List.nil_prefix
  | cons i others ih =>
    rw [List.flatMap_cons] at h
    have hi : i.bytes <+: instructions.flatMap Instruction.bytes ++ rest :=
      (List.prefix_append _ _).trans h
    cases instructions with
    | nil => exact absurd hi (hrest i)
    | cons j instructions =>
      rw [List.flatMap_cons, List.append_assoc] at h hi
      obtain rfl : i = j := Instruction.eq_of_begins hi (List.prefix_append _ _)
      rw [List.prefix_append_right_inj] at h
      exact (List.prefix_cons_inj i).2 (ih h)

/-- Bytes are the encoding of one list of instructions at most. -/
theorem flatMap_bytes_injective
    (h : others.flatMap Instruction.bytes =
      instructions.flatMap Instruction.bytes) :
    others = instructions := by
  have hnone : ∀ i : Instruction, ¬i.bytes <+: [] :=
    (Ending.complete : Ending 0 [] []).not_begins
  have hbegins : ∀ {xs ys : List Instruction},
      xs.flatMap Instruction.bytes = ys.flatMap Instruction.bytes →
      xs <+: ys := by
    intro xs ys hbytes
    exact begins_of_flatMap hnone ⟨[], by rw [hbytes]⟩
  exact (hbegins h).eq_of_length_le (hbegins h.symm).length_le

theorem eq_nil_iff_of_ending (hending : Ending offset rest ending) :
    ending = [] ↔ ∃ all : List Instruction,
      instructions.flatMap Instruction.bytes ++ rest =
        all.flatMap Instruction.bytes := by
  rw [hending.eq_nil_iff]
  constructor
  · rintro rfl
    exact ⟨instructions, List.append_nil _⟩
  · rintro ⟨all, hall⟩
    obtain ⟨more, hmore⟩ := begins_of_flatMap hending.not_begins ⟨[], by
      rw [List.append_nil, hall]⟩
    have hlength := congrArg List.length hall
    rw [List.length_append, ← hmore, List.flatMap_append,
      List.length_append] at hlength
    exact List.length_eq_zero_iff.1 (by omega)

/-! ## The text of a listing -/

/-- Text that neither ends a line nor marks one at which a listing stops. -/
def Plain (text : String) : Prop := ∀ c ∈ text.toList, c ≠ '\n' ∧ c ≠ '<'

instance (text : String) : Decidable (Plain text) :=
  List.decidableBAll (fun c => c ≠ '\n' ∧ c ≠ '<') text.toList

theorem Plain.append {first second : String} (h : Plain first)
    (h' : Plain second) : Plain (first ++ second) := by
  intro c hc
  rw [String.toList_append, List.mem_append] at hc
  exact hc.elim (h c) (h' c)

theorem plain_toString (n : Nat) : Plain (toString n) := by
  intro c hc
  have htext : (toString n).toList = Nat.toDigits 10 n := String.toList_ofList
  rw [htext] at hc
  have hdigit : c.isDigit = true :=
    Nat.isDigit_of_mem_toDigits (by decide) (by decide) hc
  constructor <;> rintro rfl <;> exact absurd hdigit (by decide)

theorem plain_decimal (width n : Nat) : Plain (Text.decimal width n) := by
  have hzeros : ∀ count, Plain (String.ofList (List.replicate count '0')) := by
    intro count c hc
    rw [String.toList_ofList] at hc
    rw [List.eq_of_mem_replicate hc]
    decide
  exact (hzeros _).append (plain_toString n)

theorem plain_name (op : Opcode) : Plain op.name := by
  have hall : ∀ op ∈ Opcode.all, Plain op.name := by decide
  exact hall op (by cases op <;> decide)

theorem plain_operandText (operands : List Nat) :
    Plain (Line.operandText operands) := by
  intro c hc
  rw [Line.operandText, String.toList_join, List.mem_flatMap] at hc
  obtain ⟨text, htext, hc⟩ := hc
  obtain ⟨x, -, rfl⟩ := List.mem_map.1 htext
  have hblank : Plain " " := by decide
  exact hblank.append (plain_toString x) c hc

namespace Line

/-- The listing stops with this line. -/
def Stops : Line → Prop
  | instruction _ _ _ => False
  | invalid _ _ | truncated _ _ => True

/-- The text of a line without its end, which is plain unless the
listing stops there. -/
def content : Line → String
  | instruction offset op operands =>
    Text.decimal 4 offset ++ " " ++ op.name ++ operandText operands
  | invalid offset byte =>
    Text.decimal 4 offset ++ " <invalid " ++ toString byte.toNat ++ ">"
  | truncated offset op =>
    Text.decimal 4 offset ++ " " ++ op.name ++ " <truncated>"

theorem text_eq (line : Line) : line.text = line.content ++ "\n" := by
  cases line with
  | instruction => rfl
  | invalid offset byte =>
    have hend : ">\n" = ">" ++ "\n" := by decide
    rw [text, content, hend, ← String.append_assoc]
  | truncated offset op =>
    have hend : " <truncated>\n" = " <truncated>" ++ "\n" := by decide
    rw [text, content, hend, ← String.append_assoc]

theorem newline_not_mem_content (line : Line) : '\n' ∉ line.content.toList := by
  have hno : ∀ {text}, Plain text → '\n' ∉ text.toList :=
    fun h hc => (h _ hc).1 rfl
  have hmark : '\n' ∉ " <invalid ".toList ∧ '\n' ∉ ">".toList ∧
      '\n' ∉ " ".toList ∧ '\n' ∉ " <truncated>".toList := by decide
  cases line with
  | instruction offset op operands =>
    simp only [content, String.toList_append, List.mem_append, not_or]
    exact ⟨⟨⟨hno (plain_decimal 4 offset), hmark.2.2.1⟩, hno (plain_name op)⟩,
      hno (plain_operandText operands)⟩
  | invalid offset byte =>
    simp only [content, String.toList_append, List.mem_append, not_or]
    exact ⟨⟨⟨hno (plain_decimal 4 offset), hmark.1⟩,
      hno (plain_toString byte.toNat)⟩, hmark.2.1⟩
  | truncated offset op =>
    simp only [content, String.toList_append, List.mem_append, not_or]
    exact ⟨⟨⟨hno (plain_decimal 4 offset), hmark.2.2.1⟩, hno (plain_name op)⟩,
      hmark.2.2.2⟩

theorem mem_content_iff (line : Line) :
    '<' ∈ line.content.toList ↔ line.Stops := by
  cases line with
  | instruction offset op operands =>
    have hblank : Plain " " := by decide
    have hplain : Plain (content (.instruction offset op operands)) :=
      (((plain_decimal 4 offset).append hblank).append (plain_name op)).append
        (plain_operandText operands)
    exact iff_of_false (fun hc => (hplain _ hc).2 rfl) id
  | invalid offset byte =>
    have hmark : '<' ∈ " <invalid ".toList := by decide
    refine iff_of_true ?_ trivial
    simp only [content, String.toList_append, List.mem_append]
    exact .inl (.inl (.inr hmark))
  | truncated offset op =>
    have hmark : '<' ∈ " <truncated>".toList := by decide
    refine iff_of_true ?_ trivial
    simp only [content, String.toList_append, List.mem_append]
    exact .inr hmark

end Line

theorem linesFrom_not_stops {line : Line}
    (h : line ∈ linesFrom offset instructions) : ¬line.Stops := by
  induction instructions generalizing offset with
  | nil => cases h
  | cons i instructions ih =>
    rcases List.mem_cons.1 h with rfl | h
    · exact id
    · exact ih h

theorem Ending.exists_stops_iff (h : Ending offset rest ending) :
    (∃ line ∈ ending, line.Stops) ↔ ending ≠ [] := by
  cases h with
  | complete =>
    exact iff_of_false (fun ⟨_, hmem, _⟩ => nomatch hmem) (fun h => h rfl)
  | invalid => exact iff_of_true ⟨_, List.mem_singleton_self _, trivial⟩ nofun
  | truncated => exact iff_of_true ⟨_, List.mem_singleton_self _, trivial⟩ nofun

/-- The text of lines has the mark of a line at which the listing stops exactly
where one of them is such a line. -/
theorem mem_join_text_iff (lines : List Line) :
    '<' ∈ (String.join (lines.map Line.text)).toList ↔
      ∃ line ∈ lines, line.Stops := by
  have hend : '<' ∉ "\n".toList := by decide
  have hline : ∀ line : Line, '<' ∈ line.text.toList ↔ line.Stops := by
    intro line
    rw [line.text_eq, String.toList_append, List.mem_append,
      line.mem_content_iff, or_iff_left hend]
  rw [String.toList_join, List.mem_flatMap]
  simp only [List.mem_map, exists_exists_and_eq_and, hline]

/-- Listing inverts encoding.  Encoded instructions are listed as one line each,
in order.  Any bytes are listed as the instructions of their longest prefix that
decodes, and a line that says why the listing stops follows exactly where bytes
are left that no instruction begins. -/
theorem disassemble_inverts_encoding :
    (∀ instructions : List Instruction,
      disassemble (instructions.flatMap Instruction.bytes).toArray =
        String.join ((linesFrom 0 instructions).map Line.text)) ∧
    (∀ line : Line, line.text = line.content ++ "\n" ∧
      '\n' ∉ line.content.toList) ∧
    ∀ code : Code, ∃ instructions rest ending,
      code.toList = instructions.flatMap Instruction.bytes ++ rest ∧
      (∀ others : List Instruction,
        others.flatMap Instruction.bytes <+: code.toList →
        others <+: instructions) ∧
      Ending (instructions.flatMap Instruction.bytes).length rest ending ∧
      code.disassemble =
        String.join ((linesFrom 0 instructions ++ ending).map Line.text) ∧
      (ending ≠ [] ↔
        ¬∃ all : List Instruction,
          code.toList = all.flatMap Instruction.bytes) ∧
      ('<' ∈ code.disassemble.toList ↔
        ¬∃ all : List Instruction,
          code.toList = all.flatMap Instruction.bytes) := by
  refine ⟨?_, fun line => ⟨line.text_eq, line.newline_not_mem_content⟩, ?_⟩
  · intro instructions
    obtain ⟨shown, rest, ending, hbytes, hending, hlines⟩ :=
      exists_listingFrom (instructions.flatMap Instruction.bytes).toArray 0
    rw [suffix_zero, List.toList_toArray] at hbytes
    have hnil := (eq_nil_iff_of_ending hending).2 ⟨instructions, hbytes.symm⟩
    rw [hending.eq_nil_iff.1 hnil, List.append_nil] at hbytes
    rw [disassemble, listing, hlines, hnil, List.append_nil,
      flatMap_bytes_injective hbytes]
  · intro code
    obtain ⟨instructions, rest, ending, hbytes, hending, hlines⟩ :=
      exists_listingFrom code 0
    rw [suffix_zero] at hbytes
    rw [Nat.zero_add] at hending
    have htext : code.disassemble =
        String.join ((linesFrom 0 instructions ++ ending).map Line.text) := by
      rw [disassemble, listing, hlines]
    have hstops : ending ≠ [] ↔
        ¬∃ all : List Instruction,
          code.toList = all.flatMap Instruction.bytes := by
      rw [hbytes]
      exact not_congr (eq_nil_iff_of_ending hending)
    refine ⟨instructions, rest, ending, hbytes, ?_, hending, htext, hstops, ?_⟩
    · intro others h
      exact begins_of_flatMap hending.not_begins (hbytes ▸ h)
    · rw [htext, mem_join_text_iff, ← hstops, ← hending.exists_stops_iff]
      constructor
      · rintro ⟨line, hline, hlineStops⟩
        rcases List.mem_append.1 hline with hshown | hline
        · exact absurd hlineStops (linesFrom_not_stops hshown)
        · exact ⟨line, hline, hlineStops⟩
      · rintro ⟨line, hline, hlineStops⟩
        exact ⟨line, List.mem_append_right _ hline, hlineStops⟩

/-- A jump without its target is listed up to there. -/
example : disassemble #[2, 24, 0, 5, 24, 0] =
    "0000 OpTrue\n0001 OpJump 5\n0004 OpJump <truncated>\n" := by
  decide +kernel

end Code

end Isolate

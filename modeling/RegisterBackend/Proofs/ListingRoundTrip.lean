import RegisterBackend.Pipeline

/-!
# Listings are read back

Reading the listing of a bytecode program gives the program (`Bytecode.read_render`), so nothing is
lost when code is kept as a text: `Bytecode.listing_lossless` says that running the listing is
running the code.

Registers, labels and numbers are written as words, texts without blanks and commas. So a comma with
a blank behind it divides them again, and trimming takes nothing away. The text of a line of output
may hold any character. It stands between quotes with its line ends escaped, so that neither cutting
a listing into lines nor trimming a line touches it.
-/

namespace RegisterBackend

namespace Text

variable {cs rest : List Char} {sep : Char}

/-! ## Blanks -/

theorem trim_blank_cons {c : Char} (h : isBlank c = true) (cs : List Char) :
    trim (c :: cs) = trim cs := by
  simp only [trim, trimStart, List.dropWhile_cons_of_pos h]

/-- Nothing is trimmed from a text with no blank at its ends. -/
theorem trim_eq_self {first last : Char} (hfirst : isBlank first = false)
    (hlast : isBlank last = false) (hhead : cs.head? = some first) (htail : cs.getLast? = some last) :
    trim cs = cs := by
  obtain ⟨tail, rfl⟩ : ∃ tail, cs = first :: tail := List.head?_eq_some_iff.1 hhead
  obtain ⟨init, hinit⟩ : ∃ init, first :: tail = init ++ [last] := List.getLast?_eq_some_iff.1 htail
  have hstart : trimStart (first :: tail) = first :: tail :=
    List.dropWhile_cons_of_neg (by simp [hfirst])
  have hend : trimStart (last :: init.reverse) = last :: init.reverse :=
    List.dropWhile_cons_of_neg (by simp [hlast])
  rw [trim, hstart, hinit, List.reverse_append, List.reverse_singleton, List.singleton_append, hend,
    List.reverse_cons, List.reverse_reverse]

/-- A text without blanks and commas. -/
def IsWord (cs : List Char) : Prop :=
  ∀ c ∈ cs, isBlank c = false ∧ c ≠ ','

theorem IsWord.append {cs' : List Char} (h : IsWord cs) (h' : IsWord cs') : IsWord (cs ++ cs') :=
  List.forall_mem_append.2 ⟨h, h'⟩

/-- Nothing is trimmed from a word. -/
theorem IsWord.trim_eq (h : IsWord cs) : trim cs = cs := by
  cases hcs : cs with
  | nil => rfl
  | cons first tail =>
    rw [← hcs]
    have hne : cs ≠ [] := by simp [hcs]
    exact trim_eq_self (h first (by simp [hcs])).1 (h _ (List.getLast_mem hne)).1 (by simp [hcs])
      (List.getLast?_eq_some_getLast hne)

/-- There are no blanks in a word. -/
theorem IsWord.not_mem_of_isBlank {c : Char} (h : IsWord cs) (hc : isBlank c = true) : c ∉ cs := by
  intro hmem
  rw [(h c hmem).1] at hc
  cases hc

/-- A text that ends with a word does not end with a blank. -/
theorem IsWord.exists_getLast? {w : List Char} (h : IsWord w) (hne : w ≠ []) (cs : List Char) :
    ∃ c, (cs ++ w).getLast? = some c ∧ isBlank c = false := by
  refine ⟨w.getLast hne, ?_, (h _ (List.getLast_mem hne)).1⟩
  rw [List.getLast?_append, List.getLast?_eq_some_getLast hne, Option.some_or]

theorem IsWord.comma_not_mem (h : IsWord cs) : ',' ∉ cs :=
  fun hmem => (h _ hmem).2 rfl

/-! ## Cutting -/

/-- There is always a part, even of the empty text. -/
theorem splitAt_ne_nil (sep : Char) (cs : List Char) : splitAt sep cs ≠ [] := by
  cases cs with
  | nil => simp [splitAt]
  | cons c cs =>
    rw [splitAt]
    split
    · simp
    · split <;> simp

/-- A text without the separator is its only part. -/
theorem splitAt_of_not_mem (h : sep ∉ cs) : splitAt sep cs = [cs] := by
  induction cs with
  | nil => rfl
  | cons c cs ih =>
    rw [List.mem_cons, not_or] at h
    rw [splitAt, if_neg (Ne.symm h.1), ih h.2]

/-- The first part ends where the separator first occurs. -/
theorem splitAt_append_cons (h : sep ∉ cs) :
    splitAt sep (cs ++ sep :: rest) = cs :: splitAt sep rest := by
  induction cs with
  | nil => simp [splitAt]
  | cons c cs ih =>
    rw [List.mem_cons, not_or] at h
    rw [List.cons_append, splitAt, if_neg (Ne.symm h.1), ih h.2]

/-- A text is cut where the separator first occurs. -/
theorem cutAt_append_cons (h : sep ∉ cs) : cutAt sep (cs ++ sep :: rest) = (cs, rest) := by
  induction cs with
  | nil => simp [cutAt]
  | cons c cs ih =>
    rw [List.mem_cons, not_or] at h
    rw [List.cons_append, cutAt, if_neg (Ne.symm h.1), ih h.2]

/-- A text that was put at the start can be dropped again. -/
theorem dropStart?_append (start cs : List Char) : dropStart? start (start ++ cs) = some cs := by
  induction start with
  | nil => rfl
  | cons c start ih => simpa [dropStart?] using ih

theorem dropEnd?_concat (last : Char) (cs : List Char) : dropEnd? last (cs ++ [last]) = some cs := by
  simp [dropEnd?]

/-! ## Numerals -/

/-- Digits are not blanks. -/
theorem isBlank_of_isDigit {c : Char} (h : c.isDigit = true) : isBlank c = false := by
  have hrange : 48 ≤ c.toNat ∧ c.toNat ≤ 57 := by
    simpa [Char.isDigit, UInt32.le_iff_toNat_le] using h
  simp only [isBlank, Bool.or_eq_false_iff, Bool.and_eq_false_iff, decide_eq_false_iff_not,
    beq_eq_false_iff_ne]
  omega

/-- Decimal digits make a word. -/
theorem isWord_toDigits (n : Nat) : IsWord (Nat.toDigits 10 n) := by
  intro c hc
  have hdigit := Nat.isDigit_of_mem_toDigits (by decide) (by decide) hc
  refine ⟨isBlank_of_isDigit hdigit, ?_⟩
  rintro rfl
  cases hdigit

/-- A number is read back from its decimal digits. -/
theorem readDigits?_toDigits (n : Nat) : readDigits? (Nat.toDigits 10 n) = some n := by
  have hall : (Nat.toDigits 10 n).all Char.isDigit = true :=
    List.all_eq_true.2 fun c hc => Nat.isDigit_of_mem_toDigits (by decide) (by decide) hc
  rw [readDigits?, if_pos ⟨Nat.toDigits_ne_nil, hall⟩, Nat.ofDigitChars_ten_toDigits]

/-- The numeral of a natural number has no sign. -/
theorem exists_toDigits_eq_cons (n : Nat) :
    ∃ c cs, Nat.toDigits 10 n = c :: cs ∧ c.isDigit = true := by
  obtain ⟨c, cs, h⟩ := List.exists_cons_of_ne_nil (Nat.toDigits_ne_nil (n := n) (b := 10))
  have hc : c ∈ Nat.toDigits 10 n := by simp [h]
  exact ⟨c, cs, h, Nat.isDigit_of_mem_toDigits (by decide) (by decide) hc⟩

/-- A register or label number is read back, since it is in the range that is read. -/
theorem readUInt32?_toDigits (n : UInt32) : readUInt32? (Nat.toDigits 10 n.toNat) = some n := by
  have hdigits := readDigits?_toDigits n.toNat
  obtain ⟨c, cs, hcons, hc⟩ := exists_toDigits_eq_cons n.toNat
  rw [hcons] at hdigits ⊢
  unfold readUInt32?
  split
  next rest heq =>
    cases heq
    cases hc
  next => simp [hdigits, UInt32.toNat_lt_size]

/-- An integer is read back from its decimal form, with its sign. -/
theorem readInt?_repr (i : Int) : readInt? i.repr.toList = some i := by
  rw [Int.repr_eq_if]
  split
  next hpos =>
    have hdigits := readDigits?_toDigits i.toNat
    obtain ⟨c, cs, hcons, hc⟩ := exists_toDigits_eq_cons i.toNat
    rw [Nat.toList_repr, hcons]
    rw [hcons] at hdigits
    unfold readInt?
    split
    next heq =>
      cases heq
      cases hc
    next heq =>
      cases heq
      cases hc
    next =>
      rw [hdigits, Option.map_some]
      exact congrArg some (Int.toNat_of_nonneg hpos)
  next hneg =>
    have hdigits := readDigits?_toDigits (-i).toNat
    have hminus : ("-" ++ (-i).toNat.repr).toList = '-' :: Nat.toDigits 10 (-i).toNat := by
      rw [String.toList_append, Nat.toList_repr]
      rfl
    rw [hminus, readInt?, hdigits]
    show some (-((-i).toNat : Int)) = some i
    rw [Int.toNat_of_nonneg (by omega), Int.neg_neg]

theorem readInt64?_repr (value : Int64) : readInt64? value.toInt.repr.toList = some value := by
  rw [readInt64?, readInt?_repr]
  simp only [Int64.minValue_le_toInt, Int64.toInt_le, and_self, if_true, Int64.ofInt_toInt]

/-- The decimal form of an integer is a word. -/
theorem isWord_repr (i : Int) : IsWord i.repr.toList := by
  rw [Int.repr_eq_if]
  split
  next =>
    rw [Nat.toList_repr]
    exact isWord_toDigits _
  next =>
    rw [String.toList_append, Nat.toList_repr]
    exact IsWord.append (by simp [IsWord, isBlank]) (isWord_toDigits _)

/-! ## Quotes -/

/-- An escaped character is read back, whatever follows. -/
theorem unescape_escapeChar (c : Char) (cs : List Char) :
    unescape (escapeChar c ++ cs) = (unescape cs).map (c :: ·) := by
  unfold escapeChar
  split
  · rfl
  · rfl
  · rfl
  · rfl
  · rfl
  next hquote hslash hfeed hreturn htab =>
    rw [List.singleton_append, unescape]
    · exact fun h _ => hslash h
    · exact fun d ds h => absurd h hslash

/-- A text in which characters are escaped one by one is read back. -/
theorem unescape_flatMap (cs : List Char) : unescape (cs.flatMap escapeChar) = .ok cs := by
  induction cs with
  | nil => rfl
  | cons c cs ih =>
    rw [List.flatMap_cons, unescape_escapeChar, ih]
    rfl

/-- A quoted text is read back, whatever is in it. -/
theorem unquote_quote (cs : List Char) : unquote (quote cs) = .ok cs := by
  have hstart := dropStart?_append ['"'] (cs.flatMap escapeChar ++ ['"'])
  rw [List.singleton_append] at hstart
  simp only [unquote, quote, hstart, Option.bind_some, dropEnd?_concat, unescape_flatMap]

/-- A line end is not written as it is. -/
theorem feed_not_mem_quote (cs : List Char) : '\n' ∉ quote cs := by
  have hchar : ∀ c : Char, '\n' ∉ escapeChar c := by
    intro c
    unfold escapeChar
    split
    · decide
    · decide
    · decide
    · decide
    · decide
    next hfeed _ _ => simpa using fun h => hfeed h.symm
  simp only [quote, List.mem_cons, List.mem_append, List.mem_flatMap, List.not_mem_nil, or_false,
    not_or]
  exact ⟨by decide, fun ⟨c, _, hc⟩ => hchar c hc, by decide⟩

theorem getLast?_quote (cs : List Char) : (quote cs).getLast? = some '"' := by
  rw [quote, ← List.cons_append, List.getLast?_concat]

theorem trim_quote (cs : List Char) : trim (quote cs) = quote cs := by
  have hquote : isBlank '"' = false := by decide
  exact trim_eq_self hquote hquote rfl (getLast?_quote cs)

end Text

/-! ## Operands -/

open Text

theorem splitOperands_word {w : List Char} (hw : IsWord w) : splitOperands w = [w] := by
  rw [splitOperands, splitAt_of_not_mem hw.comma_not_mem, List.map_singleton, hw.trim_eq]

/-- The blank behind a comma is trimmed away. -/
theorem splitOperands_blank_cons (cs : List Char) : splitOperands (' ' :: cs) = splitOperands cs := by
  obtain ⟨piece, pieces, hpieces⟩ := List.exists_cons_of_ne_nil (splitAt_ne_nil ',' cs)
  have hsplit : splitAt ',' (' ' :: cs) = (' ' :: piece) :: pieces := by
    rw [splitAt, if_neg (by decide), hpieces]
  rw [splitOperands, splitOperands, hsplit, hpieces, List.map_cons, List.map_cons,
    trim_blank_cons (by decide)]

/-- The first operand ends at the comma, and the blank behind the comma does not count. -/
theorem splitOperands_append {w : List Char} (hw : IsWord w) (cs : List Char) :
    splitOperands (w ++ ", ".toList ++ cs) = w :: splitOperands cs := by
  show splitOperands (w ++ [',', ' '] ++ cs) = _
  rw [List.append_assoc, List.cons_append, List.singleton_append, splitOperands,
    splitAt_append_cons hw.comma_not_mem, List.map_cons, hw.trim_eq]
  exact congrArg _ (splitOperands_blank_cons cs)

namespace Register

theorem toList_render (r : Register) :
    r.render.toList = "REG_".toList ++ Nat.toDigits 10 r.number.toNat := by
  rw [render, String.toList_append, Nat.toList_repr]

theorem isWord_render (r : Register) : IsWord r.render.toList := by
  rw [toList_render]
  exact IsWord.append (by simp [IsWord, isBlank]) (isWord_toDigits _)

theorem toList_render_ne_nil (r : Register) : r.render.toList ≠ [] := by
  simp [toList_render]

theorem read_render (r : Register) : Register.read r.render.toList = .ok r := by
  rw [toList_render, Register.read, dropStart?_append, Option.bind_some, readUInt32?_toDigits]

end Register

namespace Label

theorem toList_render (l : Label) :
    l.render.toList = "LABEL_".toList ++ Nat.toDigits 10 l.number.toNat := by
  rw [render, String.toList_append, Nat.toList_repr]

theorem isWord_render (l : Label) : IsWord l.render.toList := by
  rw [toList_render]
  exact IsWord.append (by simp [IsWord, isBlank]) (isWord_toDigits _)

theorem toList_render_ne_nil (l : Label) : l.render.toList ≠ [] := by
  simp [toList_render]

theorem read_render (l : Label) : Label.read l.render.toList = .ok l := by
  rw [toList_render, Label.read, dropStart?_append, Option.bind_some, readUInt32?_toDigits]

end Label

namespace Source

/-- A source is written as a word, so it cannot be split. -/
theorem isWord_render (src : Source) : IsWord src.render.toList := by
  cases src with
  | literal value => exact isWord_repr value.toInt
  | register r => exact r.isWord_render

/-- A source is not written as the empty text. -/
theorem toList_render_ne_nil (src : Source) : src.render.toList ≠ [] := by
  cases src with
  | literal value =>
    intro hnil
    have hread := readInt?_repr value.toInt
    rw [show value.toInt.repr.toList = [] from hnil] at hread
    cases hread
  | register r => exact r.toList_render_ne_nil

/-- A number does not start like a register. -/
theorem dropStart?_repr (i : Int) : dropStart? "REG_".toList i.repr.toList = none := by
  cases hcs : i.repr.toList with
  | nil => rfl
  | cons c cs =>
    have hword := readInt?_repr i
    rw [hcs] at hword
    show (if 'R' = c then _ else none) = none
    refine if_neg ?_
    rintro rfl
    simp [readInt?, readDigits?] at hword

/-- A source is read back as what it was. -/
theorem read_render (src : Source) : Source.read src.render.toList = .ok src := by
  cases src with
  | literal value =>
    simp only [render, Source.read, dropStart?_repr, Option.isSome_none, Bool.false_eq_true, if_false,
      readInt64?_repr]
  | register r =>
    have hstart : (dropStart? "REG_".toList r.render.toList).isSome = true := by
      rw [Register.toList_render, dropStart?_append]
      rfl
    rw [render, Source.read, if_pos hstart, Register.read_render]
    rfl

end Source

/-! ## Lines -/

/-- An operation is found by its own name. -/
theorem Opcode.ofName?_name (op : Opcode) : Opcode.ofName? op.name = some op := by
  cases op with
  | set | jump | label | print => decide
  | arith op => cases op <;> decide
  | compare op => cases op <;> decide
  | branch onNonzero => cases onNonzero <;> decide

/-- A mnemonic is a word, and there is something of it. -/
theorem Opcode.exists_name_eq_cons (op : Opcode) :
    ∃ c cs, op.name.toList = c :: cs ∧ IsWord (c :: cs) := by
  have hword : op.name.toList ≠ [] ∧ IsWord op.name.toList := by
    cases op with
    | set | jump | label | print => simp [name, IsWord, isBlank]
    | arith op => cases op <;> simp [name, IsWord, isBlank]
    | compare op => cases op <;> simp [name, IsWord, isBlank]
    | branch onNonzero => cases onNonzero <;> simp [name, IsWord, isBlank]
  obtain ⟨c, cs, hcs⟩ := List.exists_cons_of_ne_nil hword.1
  exact ⟨c, cs, hcs, hcs ▸ hword.2⟩

namespace Instruction

/-- The operands of an instruction are read back, given its operation. -/
theorem readOperands_render (i : Instruction) :
    readOperands i.opcode i.renderOperands.toList = .ok i := by
  cases i with
  | set dst src =>
    simp only [opcode, readOperands, renderOperands, String.toList_append,
      splitOperands_append dst.isWord_render, splitOperands_word src.isWord_render,
      Register.read_render, Source.read_render]
    rfl
  | arith op dst lhs rhs | compare op dst lhs rhs =>
    simp only [opcode, readOperands, renderOperands, String.toList_append, List.append_assoc]
    rw [← List.append_assoc, splitOperands_append dst.isWord_render, ← List.append_assoc,
      splitOperands_append lhs.isWord_render, splitOperands_word rhs.isWord_render]
    simp only [Register.read_render]
    rfl
  | jump target | label target =>
    simp only [opcode, readOperands, renderOperands, splitOperands_word target.isWord_render,
      Label.read_render]
    rfl
  | branch onNonzero cond target =>
    simp only [opcode, readOperands, renderOperands, String.toList_append,
      splitOperands_append cond.isWord_render, splitOperands_word target.isWord_render,
      Register.read_render, Label.read_render]
    rfl
  | print text =>
    simp only [opcode, readOperands, renderOperands, String.toList_ofList, trim_quote, unquote_quote,
      String.ofList_toList]

/-- An instruction is written as its operation, a blank and its operands. -/
theorem toList_render (i : Instruction) :
    i.render.toList = i.opcode.name.toList ++ ' ' :: i.renderOperands.toList := by
  simp only [render, String.toList_append, List.append_assoc]
  rfl

/-- An instruction is read back from its line. -/
theorem read_render (i : Instruction) : Instruction.read i.render.toList = .ok i := by
  obtain ⟨c, cs, hname, hword⟩ := i.opcode.exists_name_eq_cons
  have hcut : cutAt ' ' (c :: cs ++ ' ' :: i.renderOperands.toList) =
      (c :: cs, i.renderOperands.toList) :=
    cutAt_append_cons (hword.not_mem_of_isBlank (by decide))
  rw [toList_render, Instruction.read, hname, hcut, ← hname]
  simp only [String.ofList_toList, Opcode.ofName?_name, readOperands_render]

/-- Operands are written without line feeds, also those of a text with some in it. -/
theorem feed_not_mem_renderOperands (i : Instruction) : '\n' ∉ i.renderOperands.toList := by
  have hreg : ∀ r : Register, '\n' ∉ r.render.toList :=
    fun r => r.isWord_render.not_mem_of_isBlank (by decide)
  have hlabel : ∀ l : Label, '\n' ∉ l.render.toList :=
    fun l => l.isWord_render.not_mem_of_isBlank (by decide)
  have hsource : ∀ src : Source, '\n' ∉ src.render.toList :=
    fun src => src.isWord_render.not_mem_of_isBlank (by decide)
  cases i with
  | set | arith | compare | jump | branch | label =>
    simp [renderOperands, hreg, hlabel, hsource]
  | print text =>
    rw [renderOperands, String.toList_ofList]
    exact feed_not_mem_quote _

/-- An instruction is written on one line. -/
theorem feed_not_mem_render (i : Instruction) : '\n' ∉ i.render.toList := by
  obtain ⟨c, cs, hname, hword⟩ := i.opcode.exists_name_eq_cons
  have hnotName : '\n' ∉ c :: cs := hword.not_mem_of_isBlank (by decide)
  rw [toList_render, hname, List.mem_append, not_or, List.mem_cons (a := '\n') (b := ' '), not_or]
  exact ⟨hnotName, by decide, i.feed_not_mem_renderOperands⟩

/-- The operands end with a digit or a quote. -/
theorem exists_getLast?_renderOperands (i : Instruction) :
    ∃ c, i.renderOperands.toList.getLast? = some c ∧ isBlank c = false := by
  cases i with
  | set dst src =>
    rw [renderOperands, String.toList_append]
    exact src.isWord_render.exists_getLast? src.toList_render_ne_nil _
  | arith op dst lhs rhs | compare op dst lhs rhs =>
    rw [renderOperands, String.toList_append]
    exact rhs.isWord_render.exists_getLast? rhs.toList_render_ne_nil _
  | jump target | label target =>
    exact target.isWord_render.exists_getLast? target.toList_render_ne_nil []
  | branch onNonzero cond target =>
    rw [renderOperands, String.toList_append]
    exact target.isWord_render.exists_getLast? target.toList_render_ne_nil _
  | print text =>
    refine ⟨'"', ?_, by decide⟩
    rw [renderOperands, String.toList_ofList, getLast?_quote]

/-- The line of an instruction neither begins nor ends with blanks. -/
theorem trim_render (i : Instruction) : trim i.render.toList = i.render.toList := by
  obtain ⟨c, cs, hname, hword⟩ := i.opcode.exists_name_eq_cons
  obtain ⟨last, hlast, hblank⟩ := i.exists_getLast?_renderOperands
  refine trim_eq_self (hword c List.mem_cons_self).1 hblank ?_ ?_
  · rw [toList_render, hname]
    rfl
  · rw [toList_render, List.getLast?_append, List.getLast?_cons, hlast]
    rfl

end Instruction

/-! ## Listings -/

/-- The lines of a listing are read back one after the other. -/
theorem readLines_render (number : Nat) (is : List Instruction) :
    readLines number (splitAt '\n' (is.flatMap fun i => i.render.toList ++ ['\n'])) = .ok is := by
  induction is generalizing number with
  | nil => rfl
  | cons i is ih =>
    have hne : i.render.toList ≠ [] := by simp [Instruction.toList_render]
    rw [List.flatMap_cons, List.append_assoc, List.singleton_append,
      splitAt_append_cons i.feed_not_mem_render, readLines, i.trim_render]
    simp only [if_neg hne, i.read_render, ih]
    rfl

namespace Bytecode

/-- A program is written as the lines of its instructions. -/
theorem toList_render (code : Bytecode) :
    code.render.toList =
      code.instructions.toList.flatMap fun i => i.render.toList ++ ['\n'] := by
  rw [render, String.toList_join, List.flatMap_map]
  simp only [String.toList_append]
  rfl

/-- A program is what its listing is read as. -/
theorem read_render (code : Bytecode) : Bytecode.read code.render = .ok code := by
  rw [Bytecode.read, toList_render, readLines_render]
  rfl

/-- The listing of a program can stand for the program: it is read back as the program, and to run
it is to run the program, with the same report, registers and output or the same error, or without
an end. -/
theorem listing_lossless (code : Bytecode) :
    Bytecode.read code.render = .ok code ∧
      ∀ {σ : Type} (p : Pipeline) (sink : Sink σ) (output : σ),
        p.executeListing sink code.render output =
          (p.execute sink code output).map (mapError .machine) := by
  refine ⟨code.read_render, fun p sink output => ?_⟩
  simp only [Pipeline.executeListing, code.read_render]

end Bytecode

end RegisterBackend

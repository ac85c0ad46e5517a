import Mathlib.Data.List.Forall2
import RegisterBackend.Proofs.ListingRoundTrip

/-!
# Listings are read line by line

A listing can be put together from parts and laid out anew. `Bytecode.read_linewise` says what this
does to the result of reading it.

If the first part is empty or ends with a line feed, its lines are followed by those of the second
part (`Text.lines_append`). So the instructions of the second part come behind those of the first
one, and the number of a line that cannot be read is counted from the beginning of the first part,
whose lines all count, the blank ones too (`readLines_append`, `readLines_add`). An error in the
first part is found before the second part is looked at.

A line is trimmed before it is read. So the blanks at its two ends make no difference
(`Text.Respaced`), and neither does a carriage return before the line feed, which is a blank at the
end of the line. A blank between quotes is not at the end of a line and stays.
-/

namespace RegisterBackend

namespace Text

variable {cs cs' lead trail : List Char}

/-! ## Lines -/

/-- The lines of a text, each without its line feed. Behind a line feed at the end of the text there
is no further line. -/
def lines : List Char → List (List Char)
  | [] => []
  | c :: cs =>
    if c = '\n' then
      [] :: lines cs
    else
      match lines cs with
      | [] => [[c]]
      | line :: rest => (c :: line) :: rest

/-- The text is empty or ends with a line feed. -/
def EndsLine (cs : List Char) : Prop :=
  cs = [] ∨ cs.getLast? = some '\n'

/-- A text that is not empty has a line. -/
theorem lines_ne_nil (h : cs ≠ []) : lines cs ≠ [] := by
  cases cs with
  | nil => exact absurd rfl h
  | cons c cs =>
    rw [lines]
    split
    · simp
    · split <;> simp

/-- The pieces between line feeds are the lines, and an empty piece at the end of the text if the
last line is a whole one. -/
theorem splitAt_eq_lines (cs : List Char) :
    splitAt '\n' cs = lines cs ∨ splitAt '\n' cs = lines cs ++ [[]] := by
  induction cs with
  | nil => exact .inr rfl
  | cons c cs ih =>
    rw [splitAt, lines]
    by_cases hc : c = '\n'
    · simp only [if_pos hc, List.cons_append, List.cons.injEq, true_and]
      exact ih
    · simp only [if_neg hc]
      rcases ih with heq | heq
      · rw [heq]
        exact .inl rfl
      · cases hlines : lines cs with
        | nil =>
          rw [heq, hlines]
          exact .inl rfl
        | cons line rest =>
          rw [heq, hlines]
          exact .inr rfl

/-- Where the first text ends with a whole line, the lines of the second one are lines of both. -/
theorem lines_append (h : EndsLine cs) (cs' : List Char) : lines (cs ++ cs') = lines cs ++ lines cs' := by
  induction cs with
  | nil => rfl
  | cons c cs ih =>
    have hlast : (c :: cs).getLast? = some '\n' := h.resolve_left (List.cons_ne_nil _ _)
    by_cases hcs : cs = []
    · subst hcs
      cases hlast
      rfl
    · rw [List.getLast?_cons_of_ne_nil hcs] at hlast
      obtain ⟨line, rest, hlines⟩ := List.exists_cons_of_ne_nil (lines_ne_nil hcs)
      rw [List.cons_append, lines, lines, ih (.inr hlast), hlines]
      split <;> rfl

/-! ## Blanks at the ends of lines -/

/-- Blanks that do not end a line. -/
def IsSpacing (cs : List Char) : Prop :=
  ∀ c ∈ cs, isBlank c = true ∧ c ≠ '\n'

theorem IsSpacing.feed_not_mem (h : IsSpacing cs) : '\n' ∉ cs :=
  fun hmem => (h _ hmem).2 rfl

/-- Blanks before a text are trimmed away. -/
theorem IsSpacing.trim_append (h : IsSpacing lead) (cs : List Char) : trim (lead ++ cs) = trim cs := by
  have hstart : trimStart (lead ++ cs) = trimStart cs :=
    List.dropWhile_append_of_pos fun c hc => (h c hc).1
  rw [trim, hstart, trim]

/-- Blanks behind a text are trimmed away. -/
theorem IsSpacing.append_trim (h : IsSpacing trail) (cs : List Char) : trim (cs ++ trail) = trim cs := by
  induction cs with
  | nil => simpa using h.trim_append []
  | cons c cs ih =>
    by_cases hc : isBlank c = true
    · rw [List.cons_append, trim_blank_cons hc, trim_blank_cons hc, ih]
    · have hstart : ∀ rest, trimStart (c :: rest) = c :: rest :=
        fun rest => List.dropWhile_cons_of_neg hc
      have hend : trimStart (trail.reverse ++ (c :: cs).reverse) = trimStart (c :: cs).reverse :=
        List.dropWhile_append_of_pos fun d hd => (h d (List.mem_reverse.1 hd)).1
      rw [List.cons_append, trim, trim, hstart, hstart, ← List.cons_append, List.reverse_append, hend]

/-- A line stays one line with blanks before and behind it. -/
theorem feed_not_mem_spaced (hlead : IsSpacing lead) (hline : '\n' ∉ cs) (htrail : IsSpacing trail) :
    '\n' ∉ lead ++ cs ++ trail :=
  List.not_mem_append (List.not_mem_append hlead.feed_not_mem hline) htrail.feed_not_mem

theorem trim_spaced (hlead : IsSpacing lead) (htrail : IsSpacing trail) (cs : List Char) :
    trim (lead ++ cs ++ trail) = trim cs := by
  rw [htrail.append_trim, hlead.trim_append]

/-- The two ways to end a line. -/
def IsLineEnd (cs : List Char) : Prop :=
  cs = ['\n'] ∨ cs = ['\r', '\n']

/-- What stands before the line feed at the end of a line is a blank, or nothing. -/
theorem IsLineEnd.exists_spacing (h : IsLineEnd cs) : ∃ space, IsSpacing space ∧ cs = space ++ ['\n'] := by
  rcases h with rfl | rfl
  · exact ⟨[], nofun, rfl⟩
  · exact ⟨['\r'], by simp [IsSpacing, isBlank], rfl⟩

/-- The second text has the lines of the first one, which may have more blanks before and behind
them, and may be ended in the other way. -/
inductive Respaced : List Char → List Char → Prop
  | last {lead line trail} (hline : '\n' ∉ line) (hlead : IsSpacing lead) (htrail : IsSpacing trail) :
    Respaced line (lead ++ line ++ trail)
  | line {lead line trail ending ending' rest rest'} (hline : '\n' ∉ line) (hlead : IsSpacing lead)
    (htrail : IsSpacing trail) (hending : IsLineEnd ending) (hending' : IsLineEnd ending')
    (hrest : Respaced rest rest') :
    Respaced (line ++ ending ++ rest) (lead ++ line ++ trail ++ ending' ++ rest')

/-- Cutting off a line and its end. -/
theorem splitAt_lineEnd {line ending : List Char} (hline : '\n' ∉ line) (h : IsLineEnd ending)
    (rest : List Char) : ∃ space, IsSpacing space ∧
      splitAt '\n' (line ++ ending ++ rest) = (line ++ space) :: splitAt '\n' rest := by
  obtain ⟨space, hspace, rfl⟩ := h.exists_spacing
  refine ⟨space, hspace, ?_⟩
  have hnot : '\n' ∉ line ++ space := List.not_mem_append hline hspace.feed_not_mem
  rw [← splitAt_append_cons hnot]
  simp only [List.append_assoc, List.singleton_append]

/-- The lines are the same when they have been trimmed. -/
theorem Respaced.trim_eq (h : Respaced cs cs') :
    List.Forall₂ (fun line line' => trim line' = trim line) (splitAt '\n' cs) (splitAt '\n' cs') := by
  induction h with
  | last hline hlead htrail =>
    rw [splitAt_of_not_mem hline, splitAt_of_not_mem (feed_not_mem_spaced hlead hline htrail)]
    exact .cons (trim_spaced hlead htrail _) .nil
  | line hline hlead htrail hending hending' _ ih =>
    obtain ⟨space, hspace, hsplit⟩ := splitAt_lineEnd hline hending _
    obtain ⟨space', hspace', hsplit'⟩ :=
      splitAt_lineEnd (feed_not_mem_spaced hlead hline htrail) hending' _
    rw [hsplit, hsplit']
    refine .cons ?_ ih
    rw [hspace.append_trim, hspace'.append_trim, trim_spaced hlead htrail]

end Text

open Text

/-! ## Reading lines -/

/-- Lines are read one part after the other. -/
theorem readLines_append (number : Nat) (first second : List (List Char)) :
    readLines number (first ++ second) = (readLines number first).bind fun is =>
      (readLines (number + first.length) second).map (is ++ ·) := by
  induction first generalizing number with
  | nil =>
    show readLines number second = (readLines number second).map id
    cases readLines number second <;> rfl
  | cons raw first ih =>
    have hnumber : number + (raw :: first).length = number + 1 + first.length := by
      rw [List.length_cons]
      omega
    rw [hnumber, List.cons_append, readLines, readLines, ih]
    split
    · rfl
    · split
      · rfl
      · cases readLines (number + 1) first with
        | error e => rfl
        | ok is => cases readLines (number + 1 + first.length) second <;> rfl

/-- The numbers of lines count from the number of the first one. -/
theorem readLines_add (number k : Nat) (ls : List (List Char)) :
    readLines (number + k) ls = (readLines number ls).mapError fun e => ⟨e.line + k, e.fault⟩ := by
  induction ls generalizing number with
  | nil => rfl
  | cons raw ls ih =>
    have hnumber : number + k + 1 = number + 1 + k := by omega
    rw [readLines, readLines, hnumber, ih]
    split
    · rfl
    · split
      · rfl
      · cases readLines (number + 1) ls <;> rfl

/-- The lines are read as they are when they have been trimmed. -/
theorem readLines_congr {ls ls' : List (List Char)}
    (h : List.Forall₂ (fun line line' => trim line' = trim line) ls ls') (number : Nat) :
    readLines number ls' = readLines number ls := by
  induction h generalizing number with
  | nil => rfl
  | cons htrim _ ih => rw [readLines, readLines, htrim, ih]

namespace Bytecode

/-- A listing is read by its lines. -/
theorem read_eq_lines (listing : String) :
    Bytecode.read listing = (readLines 1 (lines listing.toList)).map fun is => ⟨is.toArray⟩ := by
  rw [Bytecode.read]
  rcases splitAt_eq_lines listing.toList with heq | heq
  · rw [heq]
  · have hblank : ∀ number, readLines number [[]] = .ok [] := fun _ => rfl
    rw [heq, readLines_append, hblank]
    cases readLines 1 (lines listing.toList) with
    | error e => rfl
    | ok is => simp [Except.bind, Except.map]

/-- Where the first part of a listing ends with a whole line, the listing is read part by part, and
the numbers of the lines of the second part are behind those of the first one. -/
theorem read_append {a : String} (h : EndsLine a.toList) (b : String) :
    Bytecode.read (a ++ b) = (Bytecode.read a).bind fun p =>
      ((Bytecode.read b).mapError fun e => ⟨e.line + (lines a.toList).length, e.fault⟩).map
        fun q => ⟨p.instructions ++ q.instructions⟩ := by
  rw [read_eq_lines, read_eq_lines, read_eq_lines, String.toList_append, lines_append h,
    readLines_append, readLines_add]
  cases readLines 1 (lines a.toList) with
  | error e => rfl
  | ok is =>
    cases readLines 1 (lines b.toList) with
    | error e => rfl
    | ok js => simp [Except.bind, Except.map, Except.mapError]

/-- Reading a listing goes line by line. If the first of two parts is empty or ends with a line
feed, an error in it is the error of the whole; instructions of the second part come behind those of
the first; and an error in the second part is the same error, as many lines later as the first part
has. And a listing is read with the same result when its lines get more blanks at their ends or are
ended in the other way. -/
theorem read_linewise :
    (∀ a b : String, EndsLine a.toList →
      (∀ e, Bytecode.read a = .error e → Bytecode.read (a ++ b) = .error e) ∧
      (∀ p q, Bytecode.read a = .ok p → Bytecode.read b = .ok q →
        Bytecode.read (a ++ b) = .ok ⟨p.instructions ++ q.instructions⟩) ∧
      ∀ p e, Bytecode.read a = .ok p → Bytecode.read b = .error e →
        Bytecode.read (a ++ b) = .error ⟨e.line + (lines a.toList).length, e.fault⟩) ∧
    ∀ text text' : String, Respaced text.toList text'.toList →
      Bytecode.read text' = Bytecode.read text := by
  refine ⟨fun a b hends => ⟨fun e ha => ?_, fun p q ha hb => ?_, fun p e ha hb => ?_⟩,
    fun text text' hspaced => ?_⟩
  · rw [read_append hends, ha]
    rfl
  · rw [read_append hends, ha, hb]
    rfl
  · rw [read_append hends, ha, hb]
    rfl
  · rw [Bytecode.read, Bytecode.read, readLines_congr hspaced.trim_eq]

/-- A listing of one instruction, with a blank line at its end. -/
def oneSet : String :=
  "SET REG_0, 1\n\n"

/-- A listing whose second line lacks an operand. -/
def shortAdd : String :=
  "DEBUG_PRINT \" x \"\nADD REG_1, REG_0"

/-- The two listings one behind the other, laid out anew. -/
def spacedOut : String :=
  "\tSET REG_0, 1 \r\n\n DEBUG_PRINT \" x \"\r\nADD REG_1, REG_0\u3000"

/-- The operand is missing in the fourth line of the whole, also when it has been laid out anew. -/
theorem read_linewise_shortAdd : EndsLine oneSet.toList ∧
    Bytecode.read oneSet = .ok ⟨#[.set ⟨0⟩ (.literal 1)]⟩ ∧
    Bytecode.read shortAdd = .error ⟨2, .operandCount 3 2⟩ ∧
    Bytecode.read (oneSet ++ shortAdd) = .error ⟨4, .operandCount 3 2⟩ ∧
    Respaced (oneSet ++ shortAdd).toList spacedOut.toList ∧
    Bytecode.read spacedOut = .error ⟨4, .operandCount 3 2⟩ := by
  have hends : EndsLine oneSet.toList := .inr (by decide +kernel)
  have hset : Bytecode.read oneSet = .ok ⟨#[.set ⟨0⟩ (.literal 1)]⟩ := by decide +kernel
  have hadd : Bytecode.read shortAdd = .error ⟨2, .operandCount 3 2⟩ := by decide +kernel
  have hwhole : Bytecode.read (oneSet ++ shortAdd) = .error ⟨4, .operandCount 3 2⟩ :=
    (read_linewise.1 oneSet shortAdd hends).2.2 _ _ hset hadd
  have hblank : IsSpacing [] := nofun
  have hspaced : Respaced (oneSet ++ shortAdd).toList spacedOut.toList := by
    have hfirst : (oneSet ++ shortAdd).toList = "SET REG_0, 1".toList ++ ['\n'] ++
        ([] ++ ['\n'] ++ ("DEBUG_PRINT \" x \"".toList ++ ['\n'] ++ "ADD REG_1, REG_0".toList)) := by
      decide +kernel
    have hsecond : spacedOut.toList = ['\t'] ++ "SET REG_0, 1".toList ++ [' '] ++ ['\r', '\n'] ++
        ([] ++ [] ++ [] ++ ['\n'] ++ ([' '] ++ "DEBUG_PRINT \" x \"".toList ++ [] ++ ['\r', '\n'] ++
          ([] ++ "ADD REG_1, REG_0".toList ++ ['\u3000']))) := by decide +kernel
    rw [hfirst, hsecond]
    have htab : IsSpacing ['\t'] := by simp [IsSpacing, isBlank]
    have hspace : IsSpacing [' '] := by simp [IsSpacing, isBlank]
    have hwide : IsSpacing ['\u3000'] := by simp [IsSpacing, isBlank]
    exact .line (by decide +kernel) htab hspace (.inl rfl) (.inr rfl) <|
      .line (by decide +kernel) hblank hblank (.inl rfl) (.inl rfl) <|
      .line (by decide +kernel) hspace hblank (.inl rfl) (.inr rfl) <|
      .last (by decide +kernel) hblank hwide
  exact ⟨hends, hset, hadd, hwhole, hspaced, (read_linewise.2 _ _ hspaced).trans hwhole⟩

end Bytecode

end RegisterBackend

import Microcode.Proofs.Compile.Schedule
import Microcode.Proofs.Directive.Recognition
import Microcode.Proofs.Instruction.Checks
import Microcode.Proofs.Listing.Decode
import Microcode.Proofs.Source.Lines

/-!
# The listing of a source loses nothing

Every listing can be read back from its text, and so can what a compiled source prints: its entries of the
address table are lines of the source that start with `MADRS` (`mem_madrs_ofLines`), and the words of its
program lie inside the fields.
-/

namespace Microcode

open Text

/-! ## Entries of the address table -/

/-- A directive that is read was read by one of the kinds. -/
theorem Directive.exists_readLine {kinds : List DirectiveKind} {line : Text} {d : Directive}
    (h : Directive.read? kinds line = some d) :
    ∃ k ∈ kinds, ∃ l, k.parser.readLine line = .ok l ∧ l.value = d := by
  obtain ⟨k, hk, hread⟩ := List.exists_of_findSome?_eq_some h
  refine ⟨k, hk, ?_⟩
  cases hl : k.parser.readLine line with
  | error e =>
    rw [hl] at hread
    cases hread
  | ok l =>
    rw [hl] at hread
    exact ⟨l, rfl, Option.some.inj hread⟩

/-- Only an entry of the address table becomes one, and it is kept as it was written. -/
theorem Instruction.eq_of_ofDirective_eq_madrs {line entry : Text} {d : Directive}
    (h : Instruction.ofDirective line d = .ok (.madrs entry)) :
    (∃ i value, d = .madrs i value) ∧ entry = line := by
  -- every other directive becomes another instruction, if it becomes one at all
  cases d with
  | madrs i value =>
    cases h
    exact ⟨⟨i, value, rfl⟩, rfl⟩
  | input bank i =>
    obtain ⟨input, -, hi⟩ := exists_of_map_eq_ok h
    cases hi
  | output target =>
    obtain ⟨checked, -, hi⟩ := exists_of_map_eq_ok h
    cases hi
  | mac x y b =>
    obtain ⟨m, -, hi⟩ := exists_of_map_eq_ok h
    cases hi
  | smode mode => cases h
  | store noFloat destination =>
    rw [ofDirective] at h
    unfold ofStore at h
    split at h
    · split at h
      · cases h
      · obtain ⟨register, -, hi⟩ := exists_of_map_eq_ok h
        cases hi
    · obtain ⟨access, -, hi⟩ := exists_of_map_eq_ok h
      cases hi
  | load noFloat address register =>
    rw [ofDirective, ofLoad] at h
    cases ha : Access.ofAddress noFloat address.value with
    | error e =>
      rw [ha] at h
      cases h
    | ok access =>
      rw [ha] at h
      obtain ⟨r, -, hi⟩ := exists_of_map_eq_ok (f := load access) h
      cases hi

/-- A line that is an instruction was read as a directive, without the blanks around it. -/
theorem Instruction.exists_directive_of_ofLine {line : Text} {i : Instruction}
    (h : Instruction.ofLine line = .ok (some i)) :
    ∃ d, Directive.read? DirectiveKind.all line.trim = some d ∧
      Instruction.ofDirective line.trim d = .ok i := by
  unfold ofLine ofLineWith at h
  dsimp only at h
  split at h
  · cases h
  · split at h
    · cases h
    · next d hd =>
      refine ⟨d, hd, ?_⟩
      cases hi : ofDirective line.trim d with
      | error e =>
        rw [hi] at h
        cases h
      | ok j =>
        rw [hi] at h
        cases h
        rfl

/-- A line that gives an entry of the address table starts with its word, blanks aside. -/
theorem Instruction.madrs_of_ofLine {line entry : Text}
    (h : Instruction.ofLine line = .ok (some (.madrs entry))) :
    entry = line.trim ∧ ascii "MADRS" <+: entry := by
  obtain ⟨d, hread, hd⟩ := exists_directive_of_ofLine h
  obtain ⟨⟨i, value, rfl⟩, rfl⟩ := eq_of_ofDirective_eq_madrs hd
  refine ⟨rfl, ?_⟩
  obtain ⟨k, -, l, hl, hvalue⟩ := Directive.exists_readLine hread
  have hphrase : l.value.phrase = .madrs i value := by
    rw [hvalue]
    rfl
  obtain ⟨-, r, ⟨m, hm, -⟩, -⟩ := (k.readLine_parser_eq_ok_iff _ _).1 ⟨l, hl, hphrase⟩
  -- a trimmed line starts with no gap, so the word stands at its very start
  have hskip : Parser.skipGaps line.trim = line.trim := by
    cases hhead : line.trim.head? with
    | none =>
      rw [List.head?_eq_none_iff] at hhead
      rw [hhead]
      rfl
    | some b => exact Parser.skipGaps_of_head? hhead (isGap_of_head?_trim hhead)
  rw [hskip] at hm
  exact ⟨m, hm.symm⟩

/-- A line adds the entry that it gives, if it gives one. -/
theorem Generator.madrs_line (g : Generator) (n : Int) (text : Text) :
    (g.line n text).madrs = g.madrs ∨
      (g.line n text).madrs = g.madrs ++ [text.trim] ∧ ascii "MADRS" <+: text.trim := by
  unfold line lineWith
  split
  · exact .inl rfl
  · exact .inl rfl
  · next i hi =>
    cases i with
    | madrs entry =>
      obtain ⟨rfl, hentry⟩ := Instruction.madrs_of_ofLine hi
      exact .inr ⟨rfl, hentry⟩
    | _ => exact .inl rfl

/-- The entries of the address table are trimmed lines that start with their word. -/
theorem Generator.mem_madrs_takeLines {lines : List Text} {entry : Text} {g : Generator} {n : Nat}
    (h : entry ∈ (g.takeLines n lines).madrs) :
    entry ∈ g.madrs ∨ (∃ line ∈ lines, entry = line.trim) ∧ ascii "MADRS" <+: entry := by
  induction lines generalizing g n with
  | nil => exact .inl h
  | cons text lines ih =>
    rcases ih h with hg | ⟨⟨line, hline, hentry⟩, hword⟩
    · rcases g.madrs_line n text with hsame | ⟨hadded, hword⟩
      · rw [hsame] at hg
        exact .inl hg
      · rw [hadded, List.mem_append, List.mem_singleton] at hg
        rcases hg with hg | rfl
        · exact .inl hg
        · exact .inr ⟨⟨text, List.mem_cons_self, rfl⟩, hword⟩
    · exact .inr ⟨⟨line, List.mem_cons_of_mem text hline, hentry⟩, hword⟩

/-- Completing a program leaves the address table alone. -/
theorem Generator.madrs_finish (g : Generator) : g.finish.madrs = g.madrs := by
  unfold finish
  split <;> rfl

/-- An entry of the address table is a line of the source without the blanks around it. -/
theorem Generator.mem_madrs_ofLines {lines : List Text} {entry : Text}
    (h : entry ∈ (Generator.ofLines lines).madrs) :
    (∃ line ∈ lines, entry = line.trim) ∧ ascii "MADRS" <+: entry := by
  rw [ofLines_eq_finish, madrs_finish] at h
  rcases mem_madrs_takeLines h with hinitial | hline
  · exact absurd hinitial List.not_mem_nil
  · exact hline

/-! ## Reading back -/

/-- The words of an emitted program lie inside the fields. -/
theorem clear_all_emitted (source : Text) : ∀ s ∈ emitted source, s.word.clear Field.all = 0 := by
  have hdisciplined : (emitted source).Disciplined :=
    (Generator.generated_ofLines (preprocess source).lines).disciplined.optimize
  exact fun s hs => (hdisciplined.orderly s hs).clear_all

/-- The listing of a source decodes to its address table and its emitted program. -/
theorem decode_listed (source : Text) :
    Listing.decode (listed source).text =
      some ⟨(Generator.ofLines (preprocess source).lines).madrs, Table.ofProgram (emitted source)⟩ := by
  refine Listing.decode_text (fun entry hentry => ?_) (clear_all_emitted source)
  obtain ⟨⟨line, hline, rfl⟩, hword⟩ := Generator.mem_madrs_ofLines hentry
  have hnewline : newline ∉ line := newline_not_mem_lines source line hline
  exact ⟨List.isPrefixOf_iff_prefix.2 hword, fun h => hnewline (mem_of_mem_trim h)⟩

/-- A listing of defined bits and clean entries is shown, and what is shown decodes to it. -/
theorem Listing.decode_appendTo {l : Listing} (hsize : l.table.words.length = l.table.coefs.length)
    (hwords : ∀ w ∈ l.table.words, w.bits &&& ~~~Word.used.bits = 0)
    (hmadrs : ∀ line ∈ l.madrs, ascii "MADRS" <+: line ∧ newline ∉ line) :
    ∃ t, (Showable.listing l).appendTo [] = .ok t ∧ Listing.decode t = some l := by
  have hrender : l.render = .ok (madrsText l.madrs ++ programText l.table.steps) := by
    rw [render, Table.program, if_pos hsize]
    rfl
  refine ⟨madrsText l.madrs ++ programText l.table.steps, ?_, ?_⟩
  · rw [Showable.appendTo, hrender]
    rfl
  · rw [decode_text, Table.ofProgram_steps hsize]
    · intro line hline
      exact ⟨List.isPrefixOf_iff_prefix.2 (hmadrs line hline).1, (hmadrs line hline).2⟩
    · intro s hs
      have hword : s.word ∈ l.table.words := by
        rw [← Table.ofProgram_steps hsize]
        exact List.mem_map_of_mem hs
      exact Word.ext (hwords s.word hword)

/-- **The listing loses nothing.** Every listing is read back from its text, if its lists have one length, its
words lie inside the fields, and its entries of the address table are lines that start with `MADRS`. What a
compiled source prints reads back as the generated entries and the emitted program, with as many steps as
the result says. -/
theorem decode_inverts_listing :
    (∀ l : Listing, l.table.words.length = l.table.coefs.length →
      (∀ w ∈ l.table.words, w.bits &&& ~~~Word.used.bits = 0) →
      (∀ line ∈ l.madrs, ascii "MADRS" <+: line ∧ newline ∉ line) →
      ∃ t, (Showable.listing l).appendTo [] = .ok t ∧ Listing.decode t = some l) ∧
    ∀ (source : Text) (c : Compiled), compile source = .ok c →
      Listing.decode c.text = some ⟨(Generator.ofLines (preprocess source).lines).madrs,
        ⟨(emitted source).words, (emitted source).coefs⟩⟩ ∧
      c.steps = (emitted source).length := by
  refine ⟨fun l => Listing.decode_appendTo, fun source c hc => ?_⟩
  obtain ⟨-, -, -, rfl⟩ := compile_eq_ok_iff.1 hc
  exact ⟨decode_listed source, rfl⟩

/-- A source with an entry of the address table and a coefficient, and the listing that it prints. -/
theorem decode_inverts_listing_mac :
    compile (ascii "MADRS[1] = 0x20\nMAC input, -5") =
      .ok ⟨ascii "MADRS[1] = 0x20\nCOEF[0] = -5\nMPRO[0] = XSEL YSEL ZERO\nMPRO[1] =\n", 2⟩ ∧
    Listing.decode (ascii "MADRS[1] = 0x20\nCOEF[0] = -5\nMPRO[0] = XSEL YSEL ZERO\nMPRO[1] =\n") =
      some ⟨(Generator.ofLines (preprocess (ascii "MADRS[1] = 0x20\nMAC input, -5")).lines).madrs,
        ⟨(emitted (ascii "MADRS[1] = 0x20\nMAC input, -5")).words,
          (emitted (ascii "MADRS[1] = 0x20\nMAC input, -5")).coefs⟩⟩ ∧
    ∃ t, (Showable.listing ⟨[ascii "MADRS[1] = 0x20"], [⟨0x0000a00000020000⟩, 0], [-5, 0]⟩).appendTo [] =
      .ok t ∧ Listing.decode t = some ⟨[ascii "MADRS[1] = 0x20"], [⟨0x0000a00000020000⟩, 0], [-5, 0]⟩ := by
  refine ⟨?compiled, (decode_inverts_listing.2 _ _ ?compiled).1, decode_inverts_listing.1 _ rfl ?_ ?_⟩
  case compiled =>
    apply eq_ok_of_toOption
    decide +kernel
  · decide
  · decide

end Microcode

import Microcode.Proofs.Directive.Rendering

/-!
# The directive grammar is recognised exactly

Each operand's relation is that of its tokens before any tokens that may come next, so a kind of directive
accepts a line with a phrase exactly if the line is a rendering of the phrase. The first word of a line tells
the kind, so no line is a rendering of two phrases.
-/

namespace Microcode

open Microcode.Parser

variable {ends : Text → Prop} {K : List Token} {s : Text}

/-- Reading on behind a first part, seen as one part. -/
theorem exists_seq_iff {P W : Text → Prop} {Q : Text → Text → Prop} :
    (∃ m, P m ∧ ∃ r, Q m r ∧ W r) ↔ ∃ r, (∃ m, P m ∧ Q m r) ∧ W r := by
  constructor
  · rintro ⟨m, hm, r, hr, hw⟩
    exact ⟨r, ⟨m, hm, hr⟩, hw⟩
  · rintro ⟨r, ⟨m, hm, hr⟩, hw⟩
    exact ⟨m, hm, r, hr, hw⟩

theorem written_nil_iff : Written ends [] s ↔ ends s :=
  Iff.rfl

/-! ## Operands -/

/-- An indexed operand is written by its tokens, if no byte of a word comes behind it. -/
theorem written_indexed_iff {kind bytes : Text} {i : Int} (hkind : Solid kind)
    (hK : Follows ends K bytes) (hbytes : ∀ b ∈ bytes, Text.isWord b = false) :
    Written ends (indexedTokens kind i ++ K) s ↔
      ∃ m, IndexedText kind i (skipGaps s) m ∧ Written ends K m := by
  have hcolon : Solid (ascii ":") := by decide
  show Written ends (.word kind :: .mark (ascii ":") :: .int i :: K) s ↔ _
  simp only [written_word_iff hkind, written_mark_iff hcolon, written_int_iff hK hbytes, exists_seq_iff,
    IndexedText]

theorem written_temp_iff {i : Int} :
    Written ends (tempTokens i ++ K) s ↔ ∃ m, TempText i (skipGaps s) m ∧ Written ends K m := by
  have hopen : Solid (ascii "[") := by decide
  have hclose : Solid (ascii "]") := by decide
  have hnext : Follows ends (.mark (ascii "]") :: K) (ascii "]") := .mark hclose rfl
  have hassoc : tempTokens i ++ K =
      .mark (ascii "[") :: (indexedTokens (ascii "temp") i ++ (.mark (ascii "]") :: K)) := by
    simp only [tempTokens, List.cons_append, List.append_assoc, List.nil_append]
  rw [hassoc]
  simp only [written_mark_iff hopen, written_indexed_iff (by decide : Solid (ascii "temp")) hnext (by decide),
    written_mark_iff hclose, exists_seq_iff, TempText]

/-- An address is written by its tokens; what comes behind it is not taken for one of its marks. -/
theorem written_address_iff {a : Address} (hK : Follows ends K (ascii ",\r\n")) :
    Written ends (a.tokens ++ K) s ↔ ∃ m, AddressText a (skipGaps s) m ∧ Written ends K m := by
  have hopen : Solid (ascii "[") := by decide
  have hplus : Solid (ascii "+") := by decide
  have hclose : Solid (ascii "]") := by decide
  have hadrs : Solid (ascii "/s") := by decide
  have hmadrs : Solid (ascii "madrs") := by decide
  -- what may come first behind each part, from the last one back
  have h₄ : Follows ends (flagTokens a.adrs (.word (ascii "/s")) ++ K) (ascii "/,\r\n") :=
    (Follows.word hadrs rfl).flag hK _
  have h₃ : Follows ends (flagTokens a.closed (.mark (ascii "]")) ++
      (flagTokens a.adrs (.word (ascii "/s")) ++ K)) (ascii "]/,\r\n") :=
    (Follows.mark hclose rfl).flag h₄ _
  have h₂ : Follows ends (flagTokens a.next (.mark (ascii "+")) ++
      (flagTokens a.closed (.mark (ascii "]")) ++ (flagTokens a.adrs (.word (ascii "/s")) ++ K)))
      (ascii "+]/,\r\n") :=
    (Follows.mark hplus rfl).flag h₃ _
  have h₁ : Follows ends (indexedTokens (ascii "madrs") a.index ++
      (flagTokens a.next (.mark (ascii "+")) ++ (flagTokens a.closed (.mark (ascii "]")) ++
        (flagTokens a.adrs (.word (ascii "/s")) ++ K)))) (ascii "m") :=
    Follows.word hmadrs rfl
  simp only [Address.tokens, List.append_assoc]
  simp only [written_flag_mark_iff hopen rfl h₁ (by decide),
    written_indexed_iff hmadrs h₂ (by decide), written_flag_mark_iff hplus rfl h₃ (by decide),
    written_flag_mark_iff hclose rfl h₄ (by decide), written_flag_word_iff hadrs rfl hK (by decide),
    exists_seq_iff, AddressText]

theorem written_register_iff {t : Option Int} :
    Written ends (registerTokens t ++ K) s ↔ ∃ m, RegisterText t (skipGaps s) m ∧ Written ends K m := by
  cases t with
  | none => exact written_word_iff (by decide)
  | some i => exact written_temp_iff

/-- A register starts with the first letter of `acc` or with a bracket. -/
theorem follows_register (t : Option Int) : Follows ends (registerTokens t ++ K) (ascii "a[") := by
  cases t with
  | none => exact (Follows.word (by decide) rfl).mono (by decide)
  | some i => exact (Follows.mark (by decide) rfl).mono (by decide)

theorem written_multiplicand_iff {x : Multiplicand Int} :
    Written ends (x.tokens ++ K) s ↔
      ∃ m, MultiplicandText x (skipGaps s) m ∧ Written ends K m := by
  cases x with
  | input => exact written_word_iff (by decide)
  | temp i => exact written_temp_iff

theorem written_destination_iff {x : Destination} (hK : Follows ends K (ascii ",\r\n")) :
    Written ends (x.tokens ++ K) s ↔ ∃ m, DestinationText x (skipGaps s) m ∧ Written ends K m := by
  cases x with
  | temp i => exact written_temp_iff
  | memory a => exact written_address_iff hK

/-- A word is not the start of a longer keyword if what comes next does not start as the rest of that
does. -/
theorem written_short_word_iff {t u bytes : Text} {b : UInt8} (ht : Solid t)
    (hK : Follows ends K bytes) (hu : Solid u) (hub : u.head? = some b) (hb : b ∉ bytes) :
    Written ends (.word t :: K) s ↔
      ∃ m, (Keyword t (skipGaps s) m ∧ ∀ m', ¬ Keyword (t ++ u) (skipGaps s) m') ∧ Written ends K m := by
  rw [written_word_iff ht]
  constructor
  · rintro ⟨m, hm, hw⟩
    refine ⟨m, ⟨hm, fun m' hm' => ?_⟩, hw⟩
    -- the longer keyword would leave its end to what comes next
    have hrest : m = u ++ m' := by
      have heq := hm.1.symm.trans hm'.1
      rw [List.append_assoc] at heq
      exact List.append_cancel_left heq
    have hskip : skipGaps m = u ++ m' := by
      rw [hrest]
      obtain ⟨c, hc, hgap⟩ := hu.exists_head?
      refine skipGaps_of_head? (b := c) ?_ hgap
      rw [List.head?_append, hc]
      rfl
    exact hK.not_mark hw hub hb hskip
  · rintro ⟨m, ⟨hm, -⟩, hw⟩
    exact ⟨m, hm, hw⟩

theorem written_output_iff {t : Output Int} (hK : Follows ends K (ascii ",\r\n")) :
    Written ends (t.tokens ++ K) s ↔ ∃ m, OutputText t (skipGaps s) m ∧ Written ends K m := by
  cases t with
  | yreg => exact written_word_iff (by decide)
  | adrsShifted => exact written_word_iff (by decide)
  | adrs => exact written_short_word_iff (by decide) hK (u := ascii "/s") (by decide) rfl (by decide)
  | mixer i => exact written_indexed_iff (by decide) hK (by decide)

theorem written_factor_iff {y : Factor Int} (hK : Follows ends K (ascii ",\r\n")) :
    Written ends (y.tokens ++ K) s ↔ ∃ m, FactorText y (skipGaps s) m ∧ Written ends K m := by
  cases y with
  | yregLow => exact written_word_iff (by decide)
  | yreg => exact written_short_word_iff (by decide) hK (u := ascii "/l") (by decide) rfl (by decide)
  | shifted => exact written_word_iff (by decide)
  | coefficient v => exact written_int_iff hK (by decide)

/-! ## Directives -/

/-- Gaps at the start of a text do not change what is left of it without blanks. -/
theorem trim_skipGaps (s : Text) : (skipGaps s).trim = s.trim := by
  induction s with
  | nil => rfl
  | cons b s ih =>
    cases hb : Text.isGap b with
    | false => rw [skipGaps_of_head? rfl hb]
    | true =>
      have hskip : skipGaps (b :: s) = skipGaps s := List.dropWhile_cons_of_pos hb
      have htrim : Text.trim (b :: s) = Text.trim s := by
        have hcases : b = ' '.toUInt8 ∨ b = '\t'.toUInt8 := by
          simpa [Text.isGap] using hb
        -- both gaps are blanks
        rcases hcases with rfl | rfl
        · rfl
        · rfl
      rw [hskip, ih, htrim]

namespace Phrase

theorem follows_lineEnd : Follows LineEnd [] (ascii ",\r\n") :=
  Follows.lineEnd.mono (by decide)

theorem follows_comma : Follows ends (.mark (ascii ",") :: K) (ascii ",\r\n") :=
  (Follows.mark (by decide) rfl).mono (by decide)

/-- What is rendered as an entry of the address table is what the grammar reads as one. -/
theorem rendered_madrs_iff (i : Int) (value line : Text) :
    (madrs i value).Rendered line ↔
      ∃ r, PhraseText (.madrs i value) (skipGaps line) r ∧ LineEnd r := by
  have hends (m : Text) :
      (madrs i value).Ends m ↔ ∃ r, Remainder value (skipGaps m) r ∧ LineEnd r := by
    constructor
    · rintro ⟨rfl, hne⟩
      exact ⟨[], ⟨(trim_skipGaps m).symm, hne, rfl⟩, List.forall_mem_nil _⟩
    · rintro ⟨r, ⟨hvalue, hne, -⟩, -⟩
      exact ⟨hvalue.trans (trim_skipGaps m), hne⟩
  have hmadrs : Solid (ascii "MADRS") := by decide
  have hopen : Solid (ascii "[") := by decide
  have hclose : Solid (ascii "]") := by decide
  have hequals : Solid (ascii "=") := by decide
  have hnext : Follows (madrs i value).Ends [.mark (ascii "]"), .mark (ascii "=")] (ascii "]") :=
    .mark hclose rfl
  unfold Rendered tokens
  simp only [written_mark_iff hmadrs, written_mark_iff hopen, written_int_iff hnext (by decide),
    written_mark_iff hclose, written_mark_iff hequals, written_nil_iff, hends, exists_seq_iff, PhraseText]

theorem rendered_input_iff (bank : Bank) (i : Int) (line : Text) :
    (input bank i).Rendered line ↔
      ∃ r, PhraseText (.input bank i) (skipGaps line) r ∧ LineEnd r := by
  have hinput : Solid (ascii "INPUT") := by decide
  have hbank : Solid (ascii bank.name) := by cases bank <;> decide
  have hlast (m : Text) := written_indexed_iff (s := m) (i := i) hbank follows_lineEnd (by decide)
  rw [List.append_nil] at hlast
  show Written LineEnd (.word (ascii "INPUT") :: indexedTokens (ascii bank.name) i) line ↔ _
  simp only [written_word_iff hinput, hlast, written_nil_iff, exists_seq_iff, PhraseText]

theorem rendered_output_iff (target : Output Int) (line : Text) :
    (output target).Rendered line ↔
      ∃ r, PhraseText (.output target) (skipGaps line) r ∧ LineEnd r := by
  have houtput : Solid (ascii "OUTPUT") := by decide
  have hlast (m : Text) := written_output_iff (s := m) (t := target) follows_lineEnd
  rw [List.append_nil] at hlast
  show Written LineEnd (.word (ascii "OUTPUT") :: target.tokens) line ↔ _
  simp only [written_word_iff houtput, hlast, written_nil_iff, exists_seq_iff, PhraseText]

theorem rendered_smode_iff (mode : ShiftMode) (line : Text) :
    (smode mode).Rendered line ↔
      ∃ r, PhraseText (.smode mode) (skipGaps line) r ∧ LineEnd r := by
  have hsmode : Solid (ascii "SMODE") := by decide
  have hmode : Solid (ascii mode.name) := by cases mode <;> decide
  show Written LineEnd [.word (ascii "SMODE"), .word (ascii mode.name)] line ↔ _
  simp only [written_word_iff hsmode, written_word_iff hmode, written_nil_iff, exists_seq_iff,
    PhraseText]

theorem rendered_store_iff (nf : Bool) (destination : Destination) (line : Text) :
    (store nf destination).Rendered line ↔
      ∃ r, PhraseText (.store nf destination) (skipGaps line) r ∧ LineEnd r := by
  have hstore : Solid (ascii (opcodeName "ST" "STF" nf)) := by cases nf <;> decide
  have hlast (m : Text) := written_destination_iff (s := m) (x := destination) follows_lineEnd
  rw [List.append_nil] at hlast
  show Written LineEnd (.word (ascii (opcodeName "ST" "STF" nf)) :: destination.tokens) line ↔ _
  simp only [written_word_iff hstore, hlast, written_nil_iff, exists_seq_iff, PhraseText]

theorem rendered_load_iff (nf : Bool) (address : Address) (i : Int) (line : Text) :
    (load nf address i).Rendered line ↔
      ∃ r, PhraseText (.load nf address i) (skipGaps line) r ∧ LineEnd r := by
  have hload : Solid (ascii (opcodeName "LD" "LDF" nf)) := by cases nf <;> decide
  have hcomma : Solid (ascii ",") := by decide
  have hmems : Solid (ascii "mems") := by decide
  have hlast (m : Text) := written_indexed_iff (s := m) (i := i) hmems follows_lineEnd (by decide)
  rw [List.append_nil] at hlast
  show Written LineEnd (.word (ascii (opcodeName "LD" "LDF" nf)) :: (address.tokens ++
    .mark (ascii ",") :: indexedTokens (ascii "mems") i)) line ↔ _
  simp only [written_word_iff hload, written_address_iff follows_comma, written_mark_iff hcomma, hlast,
    written_nil_iff, exists_seq_iff, PhraseText]

/-- What is rendered as a multiplication is what the grammar reads as one. -/
theorem rendered_mac_iff (x : Multiplicand Int) (y : Factor Int) (b : Option (Bool × Option Int))
    (line : Text) :
    (mac x y b).Rendered line ↔ ∃ r, PhraseText (.mac x y b) (skipGaps line) r ∧ LineEnd r := by
  have hmac : Solid (ascii "MAC") := by decide
  have hcomma : Solid (ascii ",") := by decide
  cases b with
  | none =>
    have hlast (m : Text) := written_factor_iff (s := m) (y := y) follows_lineEnd
    rw [List.append_nil] at hlast
    -- where the line ends there is no comma, so no summand is begun
    have hend (m : Text) : Written LineEnd [] m ↔
        ∃ r, (r = skipGaps m ∧ ¬ ∃ t, Mark (ascii ",") (skipGaps m) t) ∧ LineEnd r := by
      constructor
      · intro hm
        have hno : ¬ ∃ t, Mark (ascii ",") (skipGaps m) t :=
          fun ⟨t, ht⟩ => Follows.lineEnd.not_mark hm rfl (by decide) ht
        exact ⟨skipGaps m, ⟨rfl, hno⟩, (Follows.lineEnd.skip m).2 hm⟩
      · rintro ⟨r, ⟨rfl, -⟩, hr⟩
        exact (Follows.lineEnd.skip m).1 hr
    show Written LineEnd (.word (ascii "MAC") :: (x.tokens ++ .mark (ascii ",") :: y.tokens)) line ↔ _
    simp only [written_word_iff hmac, written_multiplicand_iff, written_mark_iff hcomma, hlast, hend,
      exists_seq_iff, PhraseText, Maybe]
  | some summand =>
    obtain ⟨negated, register⟩ := summand
    have hlast (m : Text) : Written LineEnd (registerTokens register ++ []) m ↔
        ∃ r, RegisterText register (skipGaps m) r ∧ Written LineEnd [] r := written_register_iff
    -- neither operand starts with a sign, so a sign that is left out is not looked for in it
    have hsign : Follows LineEnd (registerTokens register ++ []) (ascii "a[") :=
      follows_register register
    rw [List.append_nil] at hsign
    simp only [List.append_nil] at hlast
    show Written LineEnd (.word (ascii "MAC") :: (x.tokens ++ .mark (ascii ",") :: (y.tokens ++
      .mark (ascii ",") :: .sign negated :: registerTokens register))) line ↔ _
    simp only [written_word_iff hmac, written_multiplicand_iff, written_mark_iff hcomma,
      written_factor_iff follows_comma, written_sign_iff hsign (by decide), hlast, written_nil_iff,
      exists_seq_iff, PhraseText, Maybe, SummandText]

/-- **A rendering of a phrase is what the parser of its kind reads.** -/
theorem rendered_iff (p : Phrase) (line : Text) :
    p.Rendered line ↔ ∃ r, PhraseText p (skipGaps line) r ∧ LineEnd r := by
  cases p with
  | madrs i value => exact rendered_madrs_iff i value line
  | input bank i => exact rendered_input_iff bank i line
  | output target => exact rendered_output_iff target line
  | mac x y b => exact rendered_mac_iff x y b line
  | smode mode => exact rendered_smode_iff mode line
  | store nf destination => exact rendered_store_iff nf destination line
  | load nf address i => exact rendered_load_iff nf address i line

end Phrase

/-! ## The first word -/

namespace DirectiveKind

/-- The words that a directive of a kind starts with. -/
def words : DirectiveKind → List Text
  | madrs => [ascii "MADRS"]
  | input => [ascii "INPUT"]
  | output => [ascii "OUTPUT"]
  | mac => [ascii "MAC"]
  | smode => [ascii "SMODE"]
  | store => [ascii "ST", ascii "STF"]
  | load => [ascii "LD", ascii "LDF"]

theorem mem_all (k : DirectiveKind) : k ∈ all := by
  cases k <;> decide

/-- No two kinds have a first word in common. -/
theorem eq_of_mem_words {k k' : DirectiveKind} {w : Text} (h : w ∈ k.words) (h' : w ∈ k'.words) :
    k = k' := by
  have hall : ∀ k ∈ all, ∀ k' ∈ all, ∀ w ∈ k.words, w ∈ k'.words → k = k' := by decide
  exact hall k k.mem_all k' k'.mem_all w h h'

end DirectiveKind

namespace Phrase

/-- The first word of a directive is one of its kind. -/
theorem takeWhile_mem_words {p : Phrase} {s r : Text} (h : PhraseText p s r) :
    s.takeWhile Text.isWord ∈ p.kind.words := by
  have hkeyword : ∀ {t m : Text}, t ∈ p.kind.words → Keyword t s m →
      s.takeWhile Text.isWord ∈ p.kind.words := by
    intro t m ht hm
    have hall : ∀ k ∈ DirectiveKind.all, ∀ t ∈ k.words, ∀ b ∈ t, Text.isWord b = true := by decide
    rw [hm.takeWhile_eq (hall _ p.kind.mem_all t ht)]
    exact ht
  cases p with
  | madrs i value =>
    -- the bracket that follows ends the word
    obtain ⟨m, hm, m', hm', -⟩ := h
    refine hkeyword (List.mem_singleton_self _) ⟨hm, startsWord_of_skipGaps fun b hb => ?_⟩
    obtain rfl := Option.some.inj (hm'.head?_eq.symm.trans hb)
    decide
  | input bank i =>
    obtain ⟨m, hm, -⟩ := h
    exact hkeyword (List.mem_singleton_self _) hm
  | output target =>
    obtain ⟨m, hm, -⟩ := h
    exact hkeyword (List.mem_singleton_self _) hm
  | mac x y b =>
    obtain ⟨m, hm, -⟩ := h
    exact hkeyword (List.mem_singleton_self _) hm
  | smode mode =>
    obtain ⟨m, hm, -⟩ := h
    exact hkeyword (List.mem_singleton_self _) hm
  | store nf destination =>
    obtain ⟨m, hm, -⟩ := h
    have hmem : ascii (opcodeName "ST" "STF" nf) ∈ DirectiveKind.store.words := by
      cases nf <;> decide
    exact hkeyword hmem hm
  | load nf address i =>
    obtain ⟨m, hm, -⟩ := h
    have hmem : ascii (opcodeName "LD" "LDF" nf) ∈ DirectiveKind.load.words := by
      cases nf <;> decide
    exact hkeyword hmem hm

/-- The kind of a phrase can be told from its rendering. -/
theorem kind_eq_of_rendered {p q : Phrase} {line : Text} (hp : p.Rendered line) (hq : q.Rendered line) :
    p.kind = q.kind := by
  obtain ⟨r, hr, -⟩ := (p.rendered_iff line).1 hp
  obtain ⟨r', hr', -⟩ := (q.rendered_iff line).1 hq
  exact DirectiveKind.eq_of_mem_words (takeWhile_mem_words hr) (takeWhile_mem_words hr')

/-- A line renders one phrase at most. -/
theorem eq_of_rendered {p q : Phrase} {line : Text} (hp : p.Rendered line) (hq : q.Rendered line) :
    p = q := by
  -- one parser reads both, and it reads one phrase at most
  have hkind : q.kind = p.kind := (kind_eq_of_rendered hp hq).symm
  obtain ⟨r, hr, -⟩ := (p.rendered_iff line).1 hp
  obtain ⟨r', hr', -⟩ := (q.rendered_iff line).1 hq
  exact ((DirectiveKind.recognises_scan p.kind).unique ⟨rfl, hr⟩ ⟨hkind, hr'⟩).1

end Phrase

/-- **The directive grammar is recognised exactly.** A kind of directive accepts a line, with a directive
that is a phrase up to the places of its operands, exactly if the phrase is of this kind and the line is a
rendering of it. No line is a rendering of two phrases. -/
theorem readLine_eq_ok_iff_rendered (line : Text) :
    (∀ (k : DirectiveKind) (p : Phrase), (∃ d, k.parser.readLine line = .ok d ∧ d.value.phrase = p) ↔
      p.kind = k ∧ p.Rendered line) ∧
    ∀ p q : Phrase, p.Rendered line → q.Rendered line → p = q := by
  refine ⟨fun k p => ?_, fun p q hp hq => Phrase.eq_of_rendered hp hq⟩
  rw [p.rendered_iff]
  exact k.readLine_parser_eq_ok_iff line p

/-- A line with a tab, a number in another base, a plus sign apart from its operand and a line end: it is
accepted, it is a rendering, and it is a rendering of nothing else. -/
theorem readLine_eq_ok_iff_rendered_mac :
    ((DirectiveKind.mac.parser.readLine (ascii " MAC\t[ temp:0x1_F],-3 , + acc\r\n")).toOption.map
      (·.value.phrase)) = some (.mac (.temp 31) (.coefficient (-3)) (some (false, none))) ∧
    (Phrase.mac (.temp 31) (.coefficient (-3)) (some (false, none))).Rendered
      (ascii " MAC\t[ temp:0x1_F],-3 , + acc\r\n") ∧
    ∀ q : Phrase, q.Rendered (ascii " MAC\t[ temp:0x1_F],-3 , + acc\r\n") →
      q = .mac (.temp 31) (.coefficient (-3)) (some (false, none)) := by
  obtain ⟨hiff, hunique⟩ := readLine_eq_ok_iff_rendered (ascii " MAC\t[ temp:0x1_F],-3 , + acc\r\n")
  have hread : ((DirectiveKind.mac.parser.readLine
      (ascii " MAC\t[ temp:0x1_F],-3 , + acc\r\n")).toOption.map (·.value.phrase)) =
        some (.mac (.temp 31) (.coefficient (-3)) (some (false, none))) := by
    decide +kernel
  refine ⟨hread, ?_⟩
  cases hline : DirectiveKind.mac.parser.readLine (ascii " MAC\t[ temp:0x1_F],-3 , + acc\r\n") with
  | error e =>
    rw [hline] at hread
    cases hread
  | ok d =>
    rw [hline] at hread
    have hrendered := ((hiff .mac _).1 ⟨d, hline, Option.some.inj hread⟩).2
    exact ⟨hrendered, fun q hq => hunique _ _ hq hrendered⟩

end Microcode

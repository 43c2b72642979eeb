import Microcode.Proofs.Directive.Grammar

/-!
# How directives are written

A directive is written as a list of tokens (`Phrase.tokens`), each of them behind any gaps and in any of its
spellings, and nothing but line ends may follow the last one (`Written`). This is the grammar without its
parser: there are no choices in an order, no positions, and nothing is taken back.

Every relation that a parser of an operand recognises is the relation of the tokens of that operand before
whatever tokens come next (`written_address_iff` and its like). What comes next matters in two ways only: gaps
before it may be skipped, and its first byte decides that an optional part or the rest of a longer word is not
there (`Follows`).
-/

namespace Microcode

open Microcode.Parser

/-! ## Tokens -/

/-- A token of a directive. -/
inductive Token where
  /-- Bytes that stand for themselves. -/
  | mark (t : Text)
  /-- A keyword, which no byte of a word may follow. -/
  | word (t : Text)
  /-- An integer in any of its spellings. -/
  | int (v : Int)
  /-- The sign of a summand (`true` for minus); a plus sign may be left out. -/
  | sign (negated : Bool)
deriving DecidableEq, Repr

namespace Token

/-- The spellings of a token. -/
def Spelled : Token → Text → Prop
  | mark t, s => s = t
  | word t, s => s = t
  | int v, s => Literal.Spells s v
  | sign true, s => s = ascii "-"
  | sign false, s => s = ascii "+" ∨ s = []

/-- What may follow a token at once. -/
def Allows : Token → Text → Prop
  | word _, r => startsWord r = false
  | _, _ => True

end Token

/-- The tokens are written in their order, each behind gaps, and the text behind the last is as `ends`
says. -/
def Written (ends : Text → Prop) : List Token → Text → Prop
  | [], s => ends s
  | token :: tokens, s => ∃ gap t r, s = gap ++ (t ++ r) ∧ (∀ b ∈ gap, b ∈ ascii " \t") ∧
      token.Spelled t ∧ token.Allows r ∧ Written ends tokens r

/-! ## Directives -/

/-- A token that may be missing. -/
def flagTokens (present : Bool) (token : Token) : List Token :=
  if present then [token] else []

/-- An operand `kind : integer`. -/
def indexedTokens (kind : Text) (i : Int) : List Token :=
  [.word kind, .mark (ascii ":"), .int i]

/-- A temporary register. -/
def tempTokens (i : Int) : List Token :=
  .mark (ascii "[") :: (indexedTokens (ascii "temp") i ++ [.mark (ascii "]")])

/-- An address with those of its marks that it has. -/
def Address.tokens (a : Address) : List Token :=
  flagTokens a.opened (.mark (ascii "[")) ++ (indexedTokens (ascii "madrs") a.index ++
    (flagTokens a.next (.mark (ascii "+")) ++ (flagTokens a.closed (.mark (ascii "]")) ++
      flagTokens a.adrs (.word (ascii "/s")))))

/-- The accumulator or a temporary register. -/
def registerTokens : Option Int → List Token
  | none => [.word (ascii "acc")]
  | some i => tempTokens i

/-- The target of an output. -/
def Output.tokens : Output Int → List Token
  | .yreg => [.word (ascii "yreg")]
  | .adrsShifted => [.word (ascii "adrs/s")]
  | .adrs => [.word (ascii "adrs")]
  | .mixer i => indexedTokens (ascii "mixer") i

/-- What is multiplied. -/
def Multiplicand.tokens : Multiplicand Int → List Token
  | .input => [.word (ascii "input")]
  | .temp i => tempTokens i

/-- What it is multiplied by. -/
def Factor.tokens : Factor Int → List Token
  | .yregLow => [.word (ascii "yreg/l")]
  | .yreg => [.word (ascii "yreg")]
  | .shifted => [.word (ascii "shifted")]
  | .coefficient v => [.int v]

/-- Where a store goes. -/
def Destination.tokens : Destination → List Token
  | .temp i => tempTokens i
  | .memory a => a.tokens

namespace Phrase

/-- The tokens of a directive. The value of an entry of the address table is not one of them. -/
def tokens : Phrase → List Token
  | madrs i _ =>
    [.mark (ascii "MADRS"), .mark (ascii "["), .int i, .mark (ascii "]"), .mark (ascii "=")]
  | input bank i => .word (ascii "INPUT") :: indexedTokens (ascii bank.name) i
  | output target => .word (ascii "OUTPUT") :: target.tokens
  | mac x y none => .word (ascii "MAC") :: (x.tokens ++ .mark (ascii ",") :: y.tokens)
  | mac x y (some (negated, register)) =>
    .word (ascii "MAC") :: (x.tokens ++ .mark (ascii ",") :: (y.tokens ++
      .mark (ascii ",") :: .sign negated :: registerTokens register))
  | smode mode => [.word (ascii "SMODE"), .word (ascii mode.name)]
  | store nf destination => .word (ascii (if nf then "STF" else "ST")) :: destination.tokens
  | load nf address i =>
    .word (ascii (if nf then "LDF" else "LD")) :: (address.tokens ++
      .mark (ascii ",") :: indexedTokens (ascii "mems") i)

/-- What stands behind the tokens: the value of an entry of the address table, which is not empty, and
otherwise line ends only. -/
def Ends : Phrase → Text → Prop
  | madrs _ value, s => value = s.trim ∧ value ≠ []
  | _, s => LineEnd s

/-- A line is a rendering of a phrase. -/
def Rendered (p : Phrase) (line : Text) : Prop :=
  Written p.Ends p.tokens line

end Phrase

/-! ## Gaps -/

namespace Parser

/-- The gaps between tokens are spaces and tabs. -/
theorem isGap_iff {b : UInt8} : Text.isGap b = true ↔ b ∈ ascii " \t" := by
  rw [← has_gaps, ByteSet.gaps, ByteSet.has_ofText (by decide)]

/-- A gap in front makes no difference once gaps are skipped. -/
theorem skipGaps_append {gap : Text} (h : ∀ b ∈ gap, b ∈ ascii " \t") (s : Text) :
    skipGaps (gap ++ s) = skipGaps s :=
  List.dropWhile_append_of_pos fun b hb => isGap_iff.2 (h b hb)

/-- A text is a gap and what is left when it is skipped. -/
theorem exists_gap (s : Text) : ∃ gap, (∀ b ∈ gap, b ∈ ascii " \t") ∧ s = gap ++ skipGaps s :=
  ⟨s.takeWhile Text.isGap, fun _ hb => isGap_iff.1 (List.mem_takeWhile_imp hb),
    List.takeWhile_append_dropWhile.symm⟩

/-- A text that does not start with a gap is left as it is. -/
theorem skipGaps_of_head? {b : UInt8} {s : Text} (hs : s.head? = some b) (hb : Text.isGap b = false) :
    skipGaps s = s := by
  cases s with
  | nil => rfl
  | cons c s =>
    obtain rfl := Option.some.inj hs
    rw [skipGaps, List.dropWhile_cons, hb, if_neg Bool.false_ne_true]

/-- What is left behind the gaps does not start with one. -/
theorem isGap_of_head?_skipGaps {b : UInt8} {s : Text} (h : (skipGaps s).head? = some b) :
    Text.isGap b = false := by
  induction s with
  | nil => cases h
  | cons c s ih =>
    rw [skipGaps, List.dropWhile_cons] at h
    split at h
    · exact ih h
    · next hc =>
      obtain rfl := Option.some.inj h
      exact Bool.eq_false_iff.2 hc

/-- Skipping gaps once is enough. -/
@[simp]
theorem skipGaps_skipGaps (s : Text) : skipGaps (skipGaps s) = skipGaps s := by
  cases hs : (skipGaps s).head? with
  | none =>
    rw [List.head?_eq_none_iff] at hs
    rw [hs]
    rfl
  | some b => exact skipGaps_of_head? hs (isGap_of_head?_skipGaps hs)

/-- No byte of a word comes first if none comes first behind the gaps. -/
theorem startsWord_of_skipGaps {s : Text} (h : ∀ b, (skipGaps s).head? = some b → Text.isWord b = false) :
    startsWord s = false := by
  cases s with
  | nil => rfl
  | cons b s =>
    cases hb : Text.isGap b with
    | true =>
      have hall : ∀ c ∈ ascii " \t", Text.isWord c = false := by decide
      exact hall b (isGap_iff.1 hb)
    | false =>
      have hskip : skipGaps (b :: s) = b :: s := skipGaps_of_head? rfl hb
      exact h b (by rw [hskip]; rfl)

end Parser

/-! ## One token -/

section OneToken

variable {ends : Text → Prop} {K : List Token} {s : Text}

/-- A token whose spellings do not start with a gap is written where the gaps end. -/
theorem written_cons_iff {token : Token}
    (hsolid : ∀ t, token.Spelled t → ∃ b, t.head? = some b ∧ Text.isGap b = false) :
    Written ends (token :: K) s ↔
      ∃ t r, skipGaps s = t ++ r ∧ token.Spelled t ∧ token.Allows r ∧ Written ends K r := by
  constructor
  · rintro ⟨gap, t, r, rfl, hgap, ht, hr, hK⟩
    obtain ⟨b, hb, hsolid⟩ := hsolid t ht
    have hhead : (t ++ r).head? = some b := by
      rw [List.head?_append, hb]
      rfl
    -- the spelling is not skipped, so exactly the gap is
    rw [skipGaps_append hgap, skipGaps_of_head? hhead hsolid]
    exact ⟨t, r, rfl, ht, hr, hK⟩
  · rintro ⟨t, r, hs, ht, hr, hK⟩
    obtain ⟨gap, hgap, hsplit⟩ := exists_gap s
    exact ⟨gap, t, r, hsplit.trans (by rw [hs]), hgap, ht, hr, hK⟩

/-- A text starts with a byte that is no gap. -/
def Solid (t : Text) : Prop :=
  (t.head?.any fun b => !Text.isGap b) = true

instance (t : Text) : Decidable (Solid t) :=
  inferInstanceAs (Decidable (_ = true))

/-- A solid text has a first byte, which is not a gap. -/
theorem Solid.exists_head? {t : Text} (h : Solid t) : ∃ b, t.head? = some b ∧ Text.isGap b = false := by
  cases t with
  | nil => cases h
  | cons b t => exact ⟨b, rfl, by simpa [Solid] using h⟩

theorem Solid.isGap_eq {t : Text} (h : Solid t) {b : UInt8} (hb : t.head? = some b) :
    Text.isGap b = false := by
  obtain ⟨c, hc, hgap⟩ := h.exists_head?
  obtain rfl := Option.some.inj (hb.symm.trans hc)
  exact hgap

/-- A mark is written behind any gap. -/
theorem written_mark_iff {t : Text} (ht : Solid t) :
    Written ends (.mark t :: K) s ↔ ∃ m, Mark t (skipGaps s) m ∧ Written ends K m := by
  rw [written_cons_iff]
  · constructor
    · rintro ⟨u, m, hs, rfl, -, hK⟩
      exact ⟨m, hs, hK⟩
    · rintro ⟨m, hs, hK⟩
      exact ⟨t, m, hs, rfl, trivial, hK⟩
  · rintro u rfl
    exact ht.exists_head?

/-- A keyword is written behind any gap, and no byte of a word may follow it. -/
theorem written_word_iff {t : Text} (ht : Solid t) :
    Written ends (.word t :: K) s ↔ ∃ m, Keyword t (skipGaps s) m ∧ Written ends K m := by
  rw [written_cons_iff]
  · constructor
    · rintro ⟨u, m, hs, rfl, hm, hK⟩
      exact ⟨m, ⟨hs, hm⟩, hK⟩
    · rintro ⟨m, ⟨hs, hm⟩, hK⟩
      exact ⟨t, m, hs, rfl, hm, hK⟩
  · rintro u rfl
    exact ht.exists_head?

/-! ## What comes next -/

/-- The tokens that come next may have gaps before them, and what is written starts with one of some
bytes then, if there is anything. -/
structure Follows (ends : Text → Prop) (K : List Token) (bytes : Text) : Prop where
  skip : ∀ s, Written ends K (skipGaps s) ↔ Written ends K s
  head : ∀ {s b}, Written ends K s → (skipGaps s).head? = some b → b ∈ bytes

namespace Follows

variable {bytes bytes' : Text}

/-- More bytes may be allowed to follow. -/
theorem mono (h : Follows ends K bytes) (hsub : bytes ⊆ bytes') : Follows ends K bytes' :=
  ⟨h.skip, fun hw hb => hsub (h.head hw hb)⟩

theorem lineEnd : Follows LineEnd [] (ascii "\r\n") where
  skip s := by
    obtain ⟨gap, hgap, hs⟩ := exists_gap s
    have hsub : ascii " \t" ⊆ ascii " \t\r\n" := by decide
    show LineEnd (skipGaps s) ↔ LineEnd s
    constructor
    · intro h
      rw [hs]
      exact List.forall_mem_append.2 ⟨fun b hb => hsub (hgap b hb), h⟩
    · intro h
      rw [hs] at h
      exact (List.forall_mem_append.1 h).2
  head {s b} hw hb := by
    have hall : ∀ c ∈ ascii " \t\r\n", Text.isGap c = false → c ∈ ascii "\r\n" := by decide
    have hmem : b ∈ s := (List.dropWhile_sublist Text.isGap).subset (List.mem_of_head? hb)
    exact hall b (hw b hmem) (isGap_of_head?_skipGaps hb)

/-- A token all of whose spellings start with one byte, which is no gap. -/
theorem cons {token : Token} {b : UInt8} (hb : Text.isGap b = false)
    (hhead : ∀ t, token.Spelled t → t.head? = some b) : Follows ends (token :: K) [b] := by
  have hiff (s : Text) : Written ends (token :: K) s ↔
      ∃ t r, skipGaps s = t ++ r ∧ token.Spelled t ∧ token.Allows r ∧ Written ends K r :=
    written_cons_iff fun t ht => ⟨b, hhead t ht, hb⟩
  refine ⟨fun s => ?_, fun {s c} hw hc => ?_⟩
  · rw [hiff, hiff, skipGaps_skipGaps]
  · obtain ⟨t, r, hs, ht, -⟩ := (hiff s).1 hw
    rw [hs, List.head?_append, hhead t ht] at hc
    exact List.mem_singleton.2 (Option.some.inj hc).symm

theorem mark {t : Text} {b : UInt8} (ht : Solid t) (hb : t.head? = some b) :
    Follows ends (.mark t :: K) [b] :=
  cons (ht.isGap_eq hb) fun _ hu => by rw [show _ = t from hu, hb]

theorem word {t : Text} {b : UInt8} (ht : Solid t) (hb : t.head? = some b) :
    Follows ends (.word t :: K) [b] :=
  cons (ht.isGap_eq hb) fun _ hu => by rw [show _ = t from hu, hb]

/-- A token that may be missing adds its first byte. -/
theorem flag {token : Token} {b : UInt8} (htoken : Follows ends (token :: K) [b])
    (hK : Follows ends K bytes) (present : Bool) :
    Follows ends (flagTokens present token ++ K) (b :: bytes) := by
  cases present with
  | true => exact htoken.mono (List.cons_subset_cons b (List.nil_subset bytes))
  | false => exact hK.mono (List.subset_cons_self b bytes)

/-- No byte of a word follows if none may come first. -/
theorem startsWord_eq (h : Follows ends K bytes) (hbytes : ∀ b ∈ bytes, Text.isWord b = false)
    (hw : Written ends K s) : startsWord s = false :=
  startsWord_of_skipGaps fun b hb => hbytes b (h.head hw hb)

/-- A text that starts with none of these bytes does not come first. -/
theorem not_mark (h : Follows ends K bytes) (hw : Written ends K s) {t m : Text} {b : UInt8}
    (ht : t.head? = some b) (hb : b ∉ bytes) : ¬ Mark t (skipGaps s) m := by
  intro hm
  refine hb (h.head hw ?_)
  rw [show skipGaps s = t ++ m from hm, List.head?_append, ht]
  rfl

end Follows

/-- An integer before something that does not start with a byte of a word. -/
theorem written_int_iff {v : Int} {bytes : Text} (hK : Follows ends K bytes)
    (hbytes : ∀ b ∈ bytes, Text.isWord b = false) :
    Written ends (.int v :: K) s ↔ ∃ m, Number v (skipGaps s) m ∧ Written ends K m := by
  rw [written_cons_iff]
  · constructor
    · rintro ⟨t, m, hs, ht, -, hw⟩
      exact ⟨m, ⟨t, hs, ht, hK.startsWord_eq hbytes hw⟩, hw⟩
    · rintro ⟨m, ⟨t, hs, ht, -⟩, hw⟩
      exact ⟨t, m, hs, ht, trivial, hw⟩
  · intro t ht
    obtain ⟨sign, b, u, rfl, hsign, hb, -⟩ := ht.exists_digits
    rcases hsign with rfl | rfl | rfl
    · refine ⟨b, rfl, Bool.eq_false_iff.2 fun hgap => ?_⟩
      have hall : ∀ c ∈ ascii " \t", Text.isDigit c = false := by decide
      rw [hall b (isGap_iff.1 hgap)] at hb
      cases hb
    · exact ⟨_, rfl, by decide⟩
    · exact ⟨_, rfl, by decide⟩

/-- A token that may be missing, before something that is not read as the token. -/
theorem written_flag_iff {token : Token} {R : Text → Text → Prop} {bytes : Text} {present : Bool}
    (htoken : Written ends (token :: K) s ↔ ∃ m, R (skipGaps s) m ∧ Written ends K m)
    (hK : Follows ends K bytes) (hno : Written ends K s → ∀ m, ¬ R (skipGaps s) m) :
    Written ends (flagTokens present token ++ K) s ↔
      ∃ m, Flag R present (skipGaps s) m ∧ Written ends K m := by
  cases present with
  | true => exact htoken
  | false =>
    show Written ends K s ↔ _
    constructor
    · intro hw
      exact ⟨skipGaps s, ⟨rfl, hno hw⟩, (hK.skip s).2 hw⟩
    · rintro ⟨m, ⟨rfl, -⟩, hw⟩
      exact (hK.skip s).1 hw

/-- An optional mark is written if it is there, and not taken for what follows if it is not. -/
theorem written_flag_mark_iff {t bytes : Text} {b : UInt8} {present : Bool} (ht : Solid t)
    (htb : t.head? = some b) (hK : Follows ends K bytes) (hb : b ∉ bytes) :
    Written ends (flagTokens present (.mark t) ++ K) s ↔
      ∃ m, Flag (Mark t) present (skipGaps s) m ∧ Written ends K m :=
  written_flag_iff (written_mark_iff ht) hK fun hw _ => hK.not_mark hw htb hb

/-- An optional keyword is written if it is there, and not taken for what follows if it is not. -/
theorem written_flag_word_iff {t bytes : Text} {b : UInt8} {present : Bool} (ht : Solid t)
    (htb : t.head? = some b) (hK : Follows ends K bytes) (hb : b ∉ bytes) :
    Written ends (flagTokens present (.word t) ++ K) s ↔
      ∃ m, Flag (Keyword t) present (skipGaps s) m ∧ Written ends K m :=
  written_flag_iff (written_word_iff ht) hK fun hw _ hm => hK.not_mark hw htb hb hm.1

/-- The sign of a summand, before something that does not start with a sign. -/
theorem written_sign_iff {negated : Bool} {bytes : Text} (hK : Follows ends K bytes)
    (hbytes : '+'.toUInt8 ∉ bytes ∧ '-'.toUInt8 ∉ bytes) :
    Written ends (.sign negated :: K) s ↔ ∃ m, SignText negated (skipGaps s) m ∧ Written ends K m := by
  constructor
  · rintro ⟨gap, t, r, rfl, hgap, ht, -, hw⟩
    rw [skipGaps_append hgap]
    cases negated with
    | true =>
      obtain rfl : t = ascii "-" := ht
      exact ⟨r, .inl (skipGaps_of_head? (b := '-'.toUInt8) rfl (by decide)), hw⟩
    | false =>
      rcases ht with rfl | rfl
      · exact ⟨r, .inl (skipGaps_of_head? (b := '+'.toUInt8) rfl (by decide)), hw⟩
      · -- without a sign nothing is read, so the next token keeps its gaps
        refine ⟨skipGaps r, .inr ⟨rfl, rfl, fun n m => ?_⟩, (hK.skip r).2 hw⟩
        cases n
        · exact hK.not_mark hw rfl hbytes.1
        · exact hK.not_mark hw rfl hbytes.2
  · rintro ⟨m, hsign | ⟨rfl, rfl, -⟩, hw⟩
    · obtain ⟨gap, hgap, hs⟩ := exists_gap s
      refine ⟨gap, ascii (signName negated), m, hs.trans (congrArg _ hsign), hgap, ?_, trivial, hw⟩
      cases negated
      · exact .inl rfl
      · exact rfl
    · exact ⟨[], [], s, rfl, by decide, .inr rfl, trivial, (hK.skip s).1 hw⟩

end OneToken

end Microcode

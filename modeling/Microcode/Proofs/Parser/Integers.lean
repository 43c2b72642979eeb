import Microcode.Proofs.Parser.Tokens

/-!
# Reading integers

The token of an integer is an optional sign with all the bytes of words behind it (`IntegerToken`). The parser of
integers accepts the token if it spells a signed 64-bit integer, and stops where it started otherwise
(`int_scan_eq_ok_iff`).

Every integer of 64 signed bits is read back from its digits in decimal, and in each base behind a prefix of
that base (`Literal.spells_spelling`).
-/

namespace Microcode

/-! ## Spelling an integer in a base -/

namespace Literal

/-- Decimal without a prefix, and the other bases with their prefixes. -/
def bases : List (Text × Nat) :=
  ([], 10) :: basePrefixes

/-- The digits of a number in a base, the most significant first and letters in lower case. -/
def digits (base n : Nat) : Text :=
  (Nat.toDigits base n).map Char.toUInt8

/-- An integer in a base, behind a prefix, with a sign if it is negative. -/
def spelling (mark : Text) (base : Nat) (v : Int) : Text :=
  (if v < 0 then ['-'.toUInt8] else []) ++ (mark ++ digits base v.natAbs)

theorem digit?_digitChar {d : Nat} (hd : d < 16) : digit? (Nat.digitChar d).toUInt8 = some d := by
  have hall : ∀ i : Fin 16, digit? (Nat.digitChar i).toUInt8 = some i.val := by decide
  exact hall ⟨d, hd⟩

/-- The last digit counts once. -/
theorem horner_concat (base acc : Nat) (ds : List Nat) (d : Nat) :
    horner base acc (ds ++ [d]) = horner base acc ds * base + d := by
  rw [horner, List.foldl_append]
  rfl

/-- One more digit at the end. -/
theorem Digits.concat {base : Nat} {ds : List Nat} {s : Text} {b : UInt8} {d : Nat} (h : Digits base ds s)
    (value : digit? b = some d) (lt : d < base) : Digits base (ds ++ [d]) (s ++ [b]) := by
  induction h with
  | last value' lt' => exact .next value' lt' (.last value lt)
  | next value' lt' _ ih => exact .next value' lt' ih
  | separated value' lt' _ ih => exact .separated value' lt' ih

/-- The digits of a number are digits of the base, and they make the number. -/
theorem digits_spell {base : Nat} (hlow : 1 < base) (hhigh : base ≤ 16) (n : Nat) :
    ∃ ds, Digits base ds (digits base n) ∧ horner base 0 ds = n := by
  induction n using Nat.strongRecOn with
  | ind n ih =>
    rw [digits, Nat.toDigits_eq_if hlow]
    split
    · next hlt =>
      refine ⟨[n], .last (digit?_digitChar (by omega)) hlt, ?_⟩
      rw [horner, List.foldl_cons, Nat.zero_mul, Nat.zero_add]
      rfl
    · next hge =>
      have hdiv : n / base < n := Nat.div_lt_self (by omega) hlow
      have hmod : n % base < base := Nat.mod_lt n (by omega)
      obtain ⟨ds, hds, hvalue⟩ := ih (n / base) hdiv
      refine ⟨ds ++ [n % base], ?_, ?_⟩
      · rw [List.map_append]
        exact hds.concat (digit?_digitChar (by omega)) hmod
      · rw [horner_concat, hvalue, Nat.div_add_mod']

/-- The first digit of a positive number is not zero. -/
theorem head?_digits_ne {n : Nat} (hn : n ≠ 0) : (digits 10 n).head? ≠ some '0'.toUInt8 := by
  induction n using Nat.strongRecOn with
  | ind n ih =>
    rw [digits, Nat.toDigits_eq_if (by omega)]
    split
    · next hlt =>
      have hall : ∀ i : Fin 10, i.val ≠ 0 → (Nat.digitChar i).toUInt8 ≠ '0'.toUInt8 := by decide
      intro hhead
      exact hall ⟨n, hlt⟩ hn (Option.some.inj hhead)
    · next hge =>
      have hne : (Nat.toDigits 10 (n / 10)).map Char.toUInt8 ≠ [] := by
        intro hnil
        exact Nat.toDigits_ne_nil (List.map_eq_nil_iff.1 hnil)
      rw [List.map_append, List.head?_append_of_ne_nil _ hne]
      exact ih (n / 10) (by omega) (by omega)

/-- Every number is spelled by its digits in each base. -/
theorem spelled_digits {mark : Text} {base : Nat} (h : (mark, base) ∈ bases) (n : Nat) :
    Spelled (mark ++ digits base n) n := by
  have hbounds : ∀ e ∈ bases, 1 < e.2 ∧ e.2 ≤ 16 := by decide
  obtain ⟨hlow, hhigh⟩ := hbounds _ h
  obtain ⟨ds, hds, hvalue⟩ := digits_spell hlow hhigh n
  rcases List.mem_cons.1 h with hdecimal | hmarked
  · cases hdecimal
    by_cases hn : n = 0
    · subst hn
      exact .zero
    · have hspelled := Spelled.decimal (head?_digits_ne hn) hds
      rwa [hvalue] at hspelled
  · have hspelled := Spelled.based hmarked (.inl hds)
    rwa [hvalue] at hspelled

/-- Every signed 64-bit integer is spelled in each base. -/
theorem spells_spelling {mark : Text} {base : Nat} (h : (mark, base) ∈ bases) {v : Int} (hlow : -2 ^ 63 ≤ v)
    (hhigh : v < 2 ^ 63) : Spells (spelling mark base v) v := by
  refine ⟨hlow, hhigh, mark ++ digits base v.natAbs, v.natAbs, spelled_digits h v.natAbs, ?_⟩
  unfold spelling
  split
  · next hneg => exact .inr ⟨rfl, by omega⟩
  · next hpos => exact .inl ⟨.inl rfl, by omega⟩

end Literal

/-! ## The token of an integer -/

namespace Parser

variable {s sign run r t : Text} {c : Cursor}

/-- The token of an integer at the start of a text: an optional sign with all the bytes of words behind it.
It leaves the text `r`. -/
structure IntegerToken (s sign run r : Text) : Prop where
  eq : s = sign ++ run ++ r
  isSign : sign = [] ∧ s.head? ≠ some '+'.toUInt8 ∧ s.head? ≠ some '-'.toUInt8 ∨
    sign = ['+'.toUInt8] ∨ sign = ['-'.toUInt8]
  isWord : ∀ b ∈ run, Text.isWord b = true
  longest : startsWord r = false

/-- Every text starts with the token of an integer, which may be empty. -/
theorem exists_integerToken (s : Text) : ∃ sign run r, IntegerToken s sign run r := by
  have hbehind (u : Text) : u = u.takeWhile Text.isWord ++ u.dropWhile Text.isWord :=
    List.takeWhile_append_dropWhile.symm
  have hword (u : Text) : ∀ b ∈ u.takeWhile Text.isWord, Text.isWord b = true := fun _ =>
    List.mem_takeWhile_imp
  by_cases hsign : s.head? = some '+'.toUInt8 ∨ s.head? = some '-'.toUInt8
  · rcases hsign with hsign | hsign <;> obtain ⟨u, rfl⟩ := List.head?_eq_some_iff.1 hsign
    · exact ⟨['+'.toUInt8], _, _, congrArg (List.cons _) (hbehind u), .inr (.inl rfl), hword u,
        startsWord_dropWhile u⟩
    · exact ⟨['-'.toUInt8], _, _, congrArg (List.cons _) (hbehind u), .inr (.inr rfl), hword u,
        startsWord_dropWhile u⟩
  · exact ⟨[], _, _, hbehind s, .inl ⟨rfl, not_or.1 hsign⟩, hword s, startsWord_dropWhile s⟩

namespace IntegerToken

theorem signLength_eq (h : IntegerToken s sign run r) : signLength s = sign.length := by
  rcases h.isSign with ⟨rfl, hplus, hminus⟩ | rfl | rfl
  · cases s with
    | nil => rfl
    | cons b s =>
      have hb : (b == '+'.toUInt8 || b == '-'.toUInt8) = false := by
        rw [beq_false_of_ne fun hb => hplus (congrArg some hb),
          beq_false_of_ne fun hb => hminus (congrArg some hb), Bool.or_false]
      rw [signLength, hb, if_neg Bool.false_ne_true]
      rfl
  · rw [h.eq]
    rfl
  · rw [h.eq]
    rfl

theorem digitsOf_eq (h : IntegerToken s sign run r) : digitsOf s = run := by
  rw [digitsOf, h.signLength_eq, h.eq, List.append_assoc, List.drop_left]
  exact takeWhile_isWord_append h.isWord h.longest

/-- The token is read if it is a spelling of an integer, and its bytes are the ones that are read. -/
theorem int_scan_eq_ok_iff (h : IntegerToken c.rest sign run r) {l : Located Int} {d : Cursor} :
    int.scan c = .ok (l, d) ↔ run ≠ [] ∧ Literal.Spells (sign ++ run) l.value ∧
      l.span = ⟨c.pos, c.pos + (sign ++ run).length⟩ ∧ d = ⟨c.pos + (sign ++ run).length, r⟩ := by
  obtain ⟨span, v⟩ := l
  have hlength : sign.length + run.length = (sign ++ run).length := List.length_append.symm
  have htake : c.rest.take (sign ++ run).length = sign ++ run := by
    rw [h.eq, List.take_left]
  have hadvance : c.advance (sign ++ run).length = ⟨c.pos + (sign ++ run).length, r⟩ := by
    rw [Cursor.advance, h.eq, List.drop_left]
  unfold int
  dsimp only
  rw [h.digitsOf_eq, h.signLength_eq, hlength, htake, hadvance, ← Literal.read_eq_ok_iff, ne_eq,
    ← List.isEmpty_iff]
  split
  · next hrun => exact iff_of_false nofun fun hread => hread.1 hrun
  · next hrun =>
    cases Literal.read (sign ++ run) with
    | error cause => exact iff_of_false nofun fun hread => nomatch hread.2.1
    | ok v' =>
      dsimp only
      rw [Except.ok.injEq, Except.ok.injEq, Prod.mk.injEq, Located.mk.injEq]
      constructor
      · rintro ⟨⟨rfl, rfl⟩, rfl⟩
        exact ⟨hrun, rfl, rfl, rfl⟩
      · rintro ⟨-, rfl, rfl, rfl⟩
        exact ⟨⟨rfl, rfl⟩, rfl⟩

end IntegerToken

/-- A spelling of an integer before a byte that is not of a word is a token. -/
theorem integerToken_of_spells {v : Int} (ht : Literal.Spells t v) (hr : startsWord r = false) :
    ∃ sign run, t = sign ++ run ∧ run ≠ [] ∧ IntegerToken (t ++ r) sign run r := by
  obtain ⟨sign, b, u, rfl, hsign, hb, hword⟩ := ht.exists_digits
  refine ⟨sign, b :: u, rfl, List.cons_ne_nil b u, rfl, ?_, hword, hr⟩
  rcases hsign with rfl | hsign
  · -- a digit is no sign
    refine .inl ⟨rfl, fun hhead => ?_, fun hhead => ?_⟩
    · exact Text.ne_of_isDigit hb (by decide) (Option.some.inj hhead)
    · exact Text.ne_of_isDigit hb (by decide) (Option.some.inj hhead)
  · exact .inr hsign

/-- A spelling of an integer is read to its end. -/
theorem int_parseAt_of_spells {v : Int} (ht : Literal.Spells t v) (u : Text) (hr : startsWord r = false) :
    int.parseAt (u ++ (t ++ r)) u.length =
      .ok (⟨⟨u.length, u.length + t.length⟩, v⟩, ⟨u.length + t.length, r⟩) := by
  obtain ⟨sign, run, rfl, hrun, htoken⟩ := integerToken_of_spells ht hr
  rw [parseAt, Cursor.ofText, List.drop_left]
  exact htoken.int_scan_eq_ok_iff.2 ⟨hrun, ht, rfl, rfl⟩

end Parser

open Microcode.Parser

/-- At each position of a text the parser of integers reads the whole token there if it spells a signed 64-bit
integer, and stops at the position itself otherwise. So every such integer is read back from its digits in each
base, wherever they stand and whatever follows that is not of a word. -/
theorem int_reads_spellings :
    (∀ (b : Text) (st : Nat), ∃ sign run r, IntegerToken (b.drop st) sign run r ∧
      (∀ l c, int.parseAt b st = .ok (l, c) ↔ run ≠ [] ∧ Literal.Spells (sign ++ run) l.value ∧
        l.span = ⟨st, st + (sign ++ run).length⟩ ∧ c = ⟨st + (sign ++ run).length, r⟩) ∧
      ∀ e, int.parseAt b st = .error e → e.pos = st) ∧
    ∀ (v : Int64) (mark : Text) (base : Nat) (u r : Text), (mark, base) ∈ Literal.bases →
      startsWord r = false →
      int.parseAt (u ++ (Literal.spelling mark base v.toInt ++ r)) u.length =
        .ok (⟨⟨u.length, u.length + (Literal.spelling mark base v.toInt).length⟩, v.toInt⟩,
          ⟨u.length + (Literal.spelling mark base v.toInt).length, r⟩) := by
  refine ⟨fun b st => ?_, fun v mark base u r hbase hr => ?_⟩
  · obtain ⟨sign, run, r, htoken⟩ := exists_integerToken (b.drop st)
    refine ⟨sign, run, r, htoken, fun l c => ?_, fun e he => stepwise_int.pos_of_error he⟩
    exact IntegerToken.int_scan_eq_ok_iff (c := Cursor.ofText b st) htoken
  · have hspells := Literal.spells_spelling hbase v.le_toInt v.toInt_lt
    exact int_parseAt_of_spells hspells u hr

/-- The lowest integer in hexadecimal, between other bytes. -/
theorem int_reads_spellings_lowest :
    int.parseAt (ascii "at -0x8000000000000000,") 3 = .ok (⟨⟨3, 22⟩, -2 ^ 63⟩, ⟨22, ascii ","⟩) := by
  have hspelling : Literal.spelling (ascii "0x") 16 Int64.minValue.toInt = ascii "-0x8000000000000000" := by
    decide
  have hread := int_reads_spellings.2 Int64.minValue (ascii "0x") 16 (ascii "at ") (ascii ",") (by decide)
    (by decide)
  rw [hspelling] at hread
  exact hread

end Microcode

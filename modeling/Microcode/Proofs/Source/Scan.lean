import Microcode.Proofs.Text.Basic
import Microcode.Source.Comment

/-!
# Comments byte by byte

Comments are removed by searching for their delimiters. Here the same is done by a scan that reads one
byte after another and only knows whether it is in a comment. In the code, `/*` opens a comment; in a comment,
`*/` closes it. The two bytes of a delimiter are read together, so the star of `/*/` does not close.

* `Text.numberedFrom` gives each byte of a text its line;
* `Comment.scanFrom` says for each byte whether it belongs to a comment, and where the scan ends;
* `Comment.stripFrom_eq_scanFrom` says that both ways give the same, and `Comment.numberedFrom_text` that
  every byte that is left has the line that it had before.
-/

namespace Microcode

open Text

namespace Text

/-- The bytes of a text with their lines, if the text starts on the given line. -/
def numberedFrom (line : Nat) (s : Text) : List (UInt8 × Nat) :=
  s.mapIdx fun i b => (b, line + (s.take i).count newline)

/-- The line of what comes after a byte. -/
def lineAfter (line : Nat) (b : UInt8) : Nat :=
  line + [b].count newline

theorem lineAfter_of_ne {b : UInt8} (hb : b ≠ newline) (line : Nat) : lineAfter line b = line := by
  rw [lineAfter, List.count_singleton, if_neg (by simpa using hb), Nat.add_zero]

/-- The newlines of a text and of the byte before it. -/
theorem add_count_cons (line : Nat) (b : UInt8) (s : Text) :
    line + (b :: s).count newline = lineAfter line b + s.count newline := by
  rw [← List.singleton_append, List.count_append, ← Nat.add_assoc]
  rfl

theorem numberedFrom_cons (line : Nat) (b : UInt8) (s : Text) :
    numberedFrom line (b :: s) = (b, line) :: numberedFrom (lineAfter line b) s := by
  unfold numberedFrom
  rw [List.mapIdx_cons]
  congr 1
  congr 1
  funext i c
  rw [List.take_succ_cons, add_count_cons]

end Text

namespace Comment

/-! ## The scan -/

/-- Where a scan is: in the code, or in a comment that was opened on a line. -/
inductive Place where
  | code
  | comment (opened : Nat)
deriving DecidableEq, Repr

namespace Place

/-- Whether the scan is in a comment. -/
def inComment : Place → Bool
  | code => false
  | comment _ => true

/-- The line on which the comment was opened that the scan is in. -/
def opened? : Place → Option Nat
  | code => none
  | comment opened => some opened

/-- The two bytes that the scan looks for. -/
def delimiter : Place → Text
  | code => opening
  | comment _ => closing

/-- Where the scan is behind a delimiter that it finds on a line. -/
def turn (line : Nat) : Place → Place
  | code => comment line
  | comment _ => code

end Place

/-- A byte that was read, with its line. The delimiters of a comment belong to it. -/
structure ScannedByte where
  byte : UInt8
  line : Nat
  inComment : Bool
deriving DecidableEq, Repr

namespace ScannedByte

/-- A byte of the code stays. Of a comment, only the newlines stay. -/
def isKept (b : ScannedByte) : Bool :=
  !b.inComment || b.byte == newline

/-- The byte and its line. -/
def numbered (b : ScannedByte) : UInt8 × Nat :=
  (b.byte, b.line)

end ScannedByte

/-- What is left of some bytes. -/
def keptText (bs : List ScannedByte) : Text :=
  (bs.filter (·.isKept)).map (·.byte)

theorem keptText_append (bs cs : List ScannedByte) : keptText (bs ++ cs) = keptText bs ++ keptText cs := by
  rw [keptText, List.filter_append, List.map_append]
  rfl

/-- All bytes of a text after a scan, and where the scan ends. -/
structure Scan where
  bytes : List ScannedByte
  place : Place
deriving DecidableEq, Repr

namespace Scan

/-- What a scan leaves of the text. -/
def text (r : Scan) : Text :=
  (r.bytes.filter (·.isKept)).map (·.byte)

theorem text_eq (r : Scan) : r.text = keptText r.bytes := rfl

/-- A scan that has read some bytes before. -/
def after (bytes : List ScannedByte) (r : Scan) : Scan :=
  ⟨bytes ++ r.bytes, r.place⟩

theorem text_after (bytes : List ScannedByte) (r : Scan) : (r.after bytes).text = keptText bytes ++ r.text :=
  keptText_append bytes r.bytes

theorem after_append (front back : List ScannedByte) (r : Scan) :
    r.after (front ++ back) = (r.after back).after front := by
  rw [after, after, after, List.append_assoc]

end Scan

/-- Scans a text that starts at a place on a line. -/
def scanFrom : Place → (line : Nat) → Text → Scan
  | place, _, [] => ⟨[], place⟩
  | place, line, [b] => ⟨[⟨b, line, place.inComment⟩], place⟩
  | place, line, b :: c :: s =>
    if [b, c] = place.delimiter then
      (scanFrom (place.turn line) line s).after [⟨b, line, true⟩, ⟨c, line, true⟩]
    else (scanFrom place (lineAfter line b) (c :: s)).after [⟨b, line, place.inComment⟩]

/-- Scans a text. -/
def scan (s : Text) : Scan :=
  scanFrom .code 1 s

/-! ## Lines -/

/-- A delimiter stays on its line. -/
theorem ne_newline_of_delimiter {place : Place} {b c : UInt8} (h : [b, c] = place.delimiter) :
    b ≠ newline ∧ c ≠ newline := by
  have hmem : newline ∉ [b, c] := by
    rw [h]
    cases place with
    | code => decide
    | comment opened =>
      show newline ∉ closing
      decide
  rw [List.mem_cons, List.mem_singleton, not_or] at hmem
  exact ⟨Ne.symm hmem.1, Ne.symm hmem.2⟩

/-- A scan reads every byte on its line. -/
theorem map_numbered_scanFrom (place : Place) (line : Nat) (s : Text) :
    (scanFrom place line s).bytes.map (·.numbered) = numberedFrom line s := by
  fun_induction scanFrom place line s with
  | case1 place line => rfl
  | case2 place line b => rfl
  | case3 place line b c s hdelimiter ih =>
    obtain ⟨hb, hc⟩ := ne_newline_of_delimiter hdelimiter
    rw [numberedFrom_cons, numberedFrom_cons, lineAfter_of_ne hb, lineAfter_of_ne hc, ← ih]
    rfl
  | case4 place line b c s hdelimiter ih =>
    rw [numberedFrom_cons, ← ih]
    rfl

/-- Leaving bytes out moves no byte to another line, if all newlines stay. -/
theorem numberedFrom_keptText {bs : List ScannedByte} {line : Nat} {s : Text}
    (h : bs.map (·.numbered) = numberedFrom line s) :
    numberedFrom line (keptText bs) = (bs.filter (·.isKept)).map (·.numbered) := by
  unfold keptText
  induction bs generalizing line s with
  | nil => rfl
  | cons b bs ih =>
    cases s with
    | nil => exact absurd h (List.cons_ne_nil _ _)
    | cons c s =>
      rw [List.map_cons, numberedFrom_cons] at h
      obtain ⟨hb, hbs⟩ := List.cons.inj h
      obtain ⟨rfl, rfl⟩ := Prod.mk.inj hb
      rw [List.filter_cons]
      split
      · rw [List.map_cons, List.map_cons, numberedFrom_cons, ih hbs]
        rfl
      · next hkept =>
        -- the byte that is left out is no newline
        have hbyte : b.byte ≠ newline := by
          intro hbyte
          rw [ScannedByte.isKept, hbyte, beq_self_eq_true, Bool.or_true] at hkept
          exact hkept rfl
        rw [lineAfter_of_ne hbyte] at hbs
        exact ih hbs

/-- What is kept is numbered by the lines of the source. -/
theorem numberedFrom_text (place : Place) (line : Nat) (s : Text) :
    numberedFrom line (scanFrom place line s).text =
      ((scanFrom place line s).bytes.filter (·.isKept)).map (·.numbered) :=
  numberedFrom_keptText (map_numbered_scanFrom place line s)

/-! ## Searching for delimiters -/

/-- The bytes of a text that all belong to a comment or all do not. -/
def scannedBytes (inComment : Bool) (line : Nat) (s : Text) : List ScannedByte :=
  (numberedFrom line s).map fun (b, n) => ⟨b, n, inComment⟩

theorem scannedBytes_cons (inComment : Bool) (line : Nat) (b : UInt8) (s : Text) :
    scannedBytes inComment line (b :: s) =
      [⟨b, line, inComment⟩] ++ scannedBytes inComment (lineAfter line b) s := by
  rw [scannedBytes, numberedFrom_cons]
  rfl

/-- Of a text in the code everything stays. -/
theorem keptText_code (line : Nat) (s : Text) : keptText (scannedBytes false line s) = s := by
  induction s generalizing line with
  | nil => rfl
  | cons b s ih =>
    rw [scannedBytes_cons, keptText_append, ih]
    rfl

/-- Of a text in a comment the newlines stay. -/
theorem keptText_comment (line : Nat) (s : Text) : keptText (scannedBytes true line s) = newlines s := by
  induction s generalizing line with
  | nil => rfl
  | cons b s ih =>
    rw [scannedBytes_cons, keptText_append, ih, newlines, newlines, List.count_cons]
    by_cases hb : b = newline
    · rw [hb, beq_self_eq_true, if_pos rfl, List.replicate_succ]
      rfl
    · simp [keptText, ScannedByte.isKept, hb]

theorem delimiter_eq (place : Place) : ∃ x y, place.delimiter = [x, y] := by
  cases place with
  | code => exact ⟨_, _, rfl⟩
  | comment opened => exact ⟨_, _, rfl⟩

theorem isPrefixOf_delimiter_iff {place : Place} {b c : UInt8} {s : Text} :
    place.delimiter.isPrefixOf (b :: c :: s) = true ↔ [b, c] = place.delimiter := by
  obtain ⟨x, y, hxy⟩ := delimiter_eq place
  rw [hxy, List.isPrefixOf_iff_prefix, List.cons_prefix_cons, List.cons_prefix_cons, List.cons.injEq,
    List.cons.injEq]
  constructor
  · rintro ⟨rfl, rfl, -⟩
    exact ⟨rfl, rfl, rfl⟩
  · rintro ⟨rfl, rfl, -⟩
    exact ⟨rfl, rfl, List.nil_prefix⟩

/-- A single byte holds no delimiter. -/
theorem cut_delimiter_singleton (place : Place) (b : UInt8) : cut place.delimiter [b] = none := by
  obtain ⟨x, y, hxy⟩ := delimiter_eq place
  rw [hxy, cut_cons]
  simp [List.isPrefixOf, cut, cutAfter]

theorem drop_delimiter (place : Place) (b c : UInt8) (s : Text) :
    (b :: c :: s).drop place.delimiter.length = s := by
  obtain ⟨x, y, hxy⟩ := delimiter_eq place
  rw [hxy]
  rfl

/-- What a scan does up to the next delimiter and from there on. -/
theorem scanFrom_eq (place : Place) (line : Nat) (s : Text) :
    scanFrom place line s =
      match cut place.delimiter s with
      | none => ⟨scannedBytes place.inComment line s, place⟩
      | some (before, rest) =>
        let found := line + before.count newline
        (scanFrom (place.turn found) found rest).after
          (scannedBytes place.inComment line before ++ scannedBytes true found place.delimiter) := by
  -- the place stays the same up to the next delimiter, so the induction is on the text alone
  induction s generalizing line with
  | nil =>
    obtain ⟨x, y, hxy⟩ := delimiter_eq place
    rw [hxy, cut, cutAfter, List.isEmpty_cons, if_neg Bool.false_ne_true]
    rfl
  | cons b s ih =>
    cases s with
    | nil =>
      rw [cut_delimiter_singleton]
      rfl
    | cons c s =>
      rw [scanFrom, cut_cons]
      by_cases hdelimiter : [b, c] = place.delimiter
      · rw [if_pos hdelimiter, if_pos (isPrefixOf_delimiter_iff.2 hdelimiter), drop_delimiter]
        dsimp only
        -- a delimiter is on one line
        rw [List.count_nil, Nat.add_zero, ← hdelimiter, scannedBytes_cons, scannedBytes_cons,
          lineAfter_of_ne (ne_newline_of_delimiter hdelimiter).1]
        rfl
      · rw [if_neg hdelimiter, if_neg (mt isPrefixOf_delimiter_iff.1 hdelimiter), ih]
        cases hcut : cut place.delimiter (c :: s) with
        | none =>
          rw [Option.map_none]
          dsimp only
          rw [scannedBytes_cons place.inComment line]
          rfl
        | some parts =>
          rw [Option.map_some]
          dsimp only
          rw [add_count_cons, scannedBytes_cons, List.append_assoc, ← Scan.after_append]

/-- A scan that finds the opening of a comment. -/
theorem scanFrom_of_opening {line : Nat} {s before rest : Text} (h : cut opening s = some (before, rest)) :
    scanFrom .code line s =
      (scanFrom (.comment (line + before.count newline)) (line + before.count newline) rest).after
        (scannedBytes false line before ++ scannedBytes true (line + before.count newline) opening) := by
  rw [scanFrom_eq, Place.delimiter, h]
  rfl

/-- The code before a comment and its opening leave the code. -/
theorem keptText_opening (line start : Nat) (before : Text) :
    keptText (scannedBytes false line before ++ scannedBytes true start opening) = before := by
  rw [keptText_append, keptText_code, keptText_comment]
  exact List.append_nil before

/-- A comment and its closing leave the newlines of the comment. -/
theorem keptText_closing (start line : Nat) (comment : Text) :
    keptText (scannedBytes true start comment ++ scannedBytes true line closing) = newlines comment := by
  rw [keptText_append, keptText_comment, keptText_comment]
  exact List.append_nil (newlines comment)

/-- **Searching for the delimiters is scanning.** -/
theorem stripFrom_eq_scanFrom (line : Nat) (s : Text) :
    stripFrom line s = ⟨(scanFrom .code line s).text, (scanFrom .code line s).place.opened?⟩ := by
  -- one round of the search is a scan to the opening of a comment and a scan to its end
  fun_induction stripFrom line s with
  | case1 line s hopen =>
    rw [scanFrom_eq, Place.delimiter, hopen]
    dsimp only
    rw [Scan.text_eq, Place.inComment, keptText_code]
    rfl
  | case2 line s before rest hopen start hclose =>
    rw [scanFrom_of_opening hopen, Scan.text_after, keptText_opening, scanFrom_eq, Place.delimiter, hclose]
    dsimp only
    rw [Scan.text_eq, Place.inComment, keptText_comment]
    rfl
  | case3 line s before rest hopen start comment after hclose stripped ih =>
    rw [scanFrom_of_opening hopen, Scan.text_after, keptText_opening, scanFrom_eq, Place.delimiter, hclose]
    dsimp only
    rw [Scan.text_after, Place.inComment, keptText_closing, ← List.append_assoc]
    have htext : stripped.text = (scanFrom .code (start + comment.count newline) after).text :=
      congrArg Stripped.text ih
    have hopened : stripped.openLine = (scanFrom .code (start + comment.count newline) after).place.opened? :=
      congrArg Stripped.openLine ih
    rw [htext, hopened]
    rfl

/-- **Comments are removed byte by byte.** The scan has every byte of the source on its line. What is left is
the bytes outside of comments and the newlines, each of them on the line that it has in the source. And a
comment is reported as open on a line exactly if the scan ends in a comment that was opened there. -/
theorem strip_eq_scan (s : Text) :
    (scan s).bytes.map (·.numbered) = numberedFrom 1 s ∧
    (strip s).text = ((scan s).bytes.filter (·.isKept)).map (·.byte) ∧
    numberedFrom 1 (strip s).text = ((scan s).bytes.filter (·.isKept)).map (·.numbered) ∧
    (strip s).openLine = (scan s).place.opened? := by
  have hstrip : strip s = ⟨(scan s).text, (scan s).place.opened?⟩ := stripFrom_eq_scanFrom 1 s
  refine ⟨map_numbered_scanFrom .code 1 s, ?_, ?_, ?_⟩
  · rw [hstrip]
    rfl
  · rw [hstrip]
    exact numberedFrom_text .code 1 s
  · rw [hstrip]

/-- The slash of an opening is not the slash of a closing, and a slash before an opening stays. -/
example : strip (ascii "//*/a\n*/b") = ⟨ascii "/\nb", none⟩ := by decide +kernel

end Comment

end Microcode

import Microcode.Listing
import Microcode.Proofs.Text.Basic
import Microcode.Proofs.Word.Algebra

/-!
# Reading a listing back

`Listing.decode` reads the text of a listing line by line: the entries of the address table, and for every
step the line of its coefficient, if there is one, and the line of its word. It inverts the printing of every
listing whose words lie inside the fields and whose entries of the address table can be told from other lines
(`decode_text`).

Everything that printing leaves out comes back by a default: a field that is not listed is zero, a field
without a value is one, and a step without a line for its coefficient has the coefficient zero.
-/

namespace Microcode

namespace Text

/-! ## Decimal numbers -/

/-- The value of decimal digits. -/
def digitsValue (s : Text) : Nat :=
  s.foldl (fun n b => 10 * n + (b.toNat - '0'.toNat)) 0

/-- Reads a natural number in decimal notation. -/
def readNat? (s : Text) : Option Nat :=
  if !s.isEmpty && s.all isDigit then some (digitsValue s) else none

/-- Reads an integer in decimal notation. -/
def readInt? : Text → Option Int
  | [] => none
  | b :: s => if b = '-'.toUInt8 then (readNat? s).map fun n => -(n : Int) else (readNat? (b :: s)).map (↑·)

/-- Reads a natural number at the start of a text. -/
def takeNat? (s : Text) : Option (Nat × Text) :=
  (readNat? (s.takeWhile isDigit)).map fun n => (n, s.dropWhile isDigit)

/-- Takes given bytes off the start of a text. -/
def strip? (t s : Text) : Option Text :=
  if t.isPrefixOf s then some (s.drop t.length) else none

theorem strip?_append (t s : Text) : strip? t (t ++ s) = some s := by
  have hpre : t.isPrefixOf (t ++ s) = true := List.isPrefixOf_iff_prefix.2 (List.prefix_append t s)
  rw [strip?, if_pos hpre, List.drop_left]

theorem toNat_toUInt8_of_isDigit {c : Char} (h : c.isDigit = true) : c.toUInt8.toNat = c.toNat := by
  have hle : c.toNat ≤ 57 := by
    simp only [Char.isDigit, Bool.and_eq_true, decide_eq_true_eq] at h
    exact h.2
  show c.toNat % 256 = c.toNat
  omega

/-- A number is written in digits only. -/
theorem isDigit_of_mem_ofNat {n : Nat} {b : UInt8} (h : b ∈ ofNat n) : isDigit b = true := by
  obtain ⟨c, hc, rfl⟩ := List.mem_map.1 h
  have hdigit : c.isDigit = true := Nat.isDigit_of_mem_toDigits (by decide) (by decide) hc
  have hnat : c.toUInt8.toNat = c.toNat := toNat_toUInt8_of_isDigit hdigit
  simp only [Char.isDigit, Bool.and_eq_true, decide_eq_true_eq] at hdigit
  simp only [isDigit, Bool.and_eq_true, decide_eq_true_eq]
  rw [UInt8.le_iff_toNat_le, UInt8.le_iff_toNat_le, hnat]
  exact hdigit

theorem ofNat_ne_nil (n : Nat) : ofNat n ≠ [] := by
  intro h
  exact Nat.toDigits_ne_nil (List.map_eq_nil_iff.1 h)

/-- The digits of a number have its value. -/
theorem digitsValue_ofNat (n : Nat) : digitsValue (ofNat n) = n := by
  have hfold : ∀ (cs : List Char) (acc : Nat), (∀ c ∈ cs, c.isDigit = true) →
      (cs.map Char.toUInt8).foldl (fun n b => 10 * n + (b.toNat - '0'.toNat)) acc =
        Nat.ofDigitChars 10 cs acc := by
    intro cs
    induction cs with
    | nil => exact fun _ _ => rfl
    | cons c cs ih =>
      intro acc hcs
      obtain ⟨hc, hcs⟩ := List.forall_mem_cons.1 hcs
      rw [List.map_cons, List.foldl_cons, toNat_toUInt8_of_isDigit hc, ih _ hcs]
      rfl
  rw [digitsValue, ofNat, hfold _ 0 fun c hc => Nat.isDigit_of_mem_toDigits (by decide) (by decide) hc]
  exact Nat.ofDigitChars_toDigits (by decide) (by decide)

/-- A number is read back from its digits. -/
theorem readNat?_ofNat (n : Nat) : readNat? (ofNat n) = some n := by
  have hall : (ofNat n).all isDigit = true :=
    List.all_eq_true.2 fun b hb => isDigit_of_mem_ofNat hb
  have hne : (ofNat n).isEmpty = false := List.isEmpty_eq_false_iff.2 (ofNat_ne_nil n)
  rw [readNat?, hall, hne, Bool.not_false, Bool.and_true, if_pos rfl, digitsValue_ofNat]

theorem readInt?_ofInt (i : Int) : readInt? (ofInt i) = some i := by
  cases i with
  | ofNat n =>
    obtain ⟨b, s, hs⟩ := List.exists_cons_of_ne_nil (ofNat_ne_nil n)
    have hdigit : isDigit b = true := by
      refine isDigit_of_mem_ofNat (n := n) ?_
      rw [hs]
      exact List.mem_cons_self
    have hb : b ≠ '-'.toUInt8 := ne_of_isDigit hdigit (by decide)
    rw [ofInt, hs, readInt?, if_neg hb, ← hs, readNat?_ofNat]
    rfl
  | negSucc n =>
    rw [ofInt, readInt?, if_pos rfl, readNat?_ofNat]
    rfl

/-- The digits of a number end at the next byte that is none. -/
theorem takeNat?_ofNat_append (n : Nat) {b : UInt8} (hb : isDigit b = false) (s : Text) :
    takeNat? (ofNat n ++ b :: s) = some (n, b :: s) := by
  have hdigits : ∀ c ∈ ofNat n, isDigit c = true := fun c hc => isDigit_of_mem_ofNat hc
  have htake : (ofNat n ++ b :: s).takeWhile isDigit = ofNat n := by
    rw [List.takeWhile_append_of_pos hdigits, List.takeWhile_cons, hb, if_neg Bool.false_ne_true,
      List.append_nil]
  have hdrop : (ofNat n ++ b :: s).dropWhile isDigit = b :: s := by
    rw [List.dropWhile_append_of_pos hdigits, List.dropWhile_cons, hb, if_neg Bool.false_ne_true]
  rw [takeNat?, htake, hdrop, readNat?_ofNat]
  rfl

end Text

namespace Word

/-! ## Words -/

/-- Reads a field with its value, which is one if there is none. -/
def readField? (s : Text) : Option (Field × Nat) := do
  let f ← Field.all.find? fun f => ascii f.name == s.takeWhile (· != ':'.toUInt8)
  match s.dropWhile (· != ':'.toUInt8) with
  | [] => return (f, 1)
  | _ :: value => return (f, ← Text.readNat? value)

/-- The word that has the given values in its fields. -/
def ofEntries (es : List (Field × Nat)) : Word :=
  es.foldl (fun w e => w.set e.1 e.2) 0

/-- Reads the fields of a word, each after a space. -/
def read? (s : Text) : Option Word :=
  match s.splitOn ' '.toUInt8 with
  | [] :: parts => (parts.mapM readField?).map ofEntries
  | _ => none

/-- A field with its value, without the space before it. -/
def entryBody (e : Field × Nat) : Text :=
  ascii e.1.name ++ if e.2 = 1 then [] else ascii ":" ++ Text.ofNat e.2

theorem entryText_eq (e : Field × Nat) : entryText e = ' '.toUInt8 :: entryBody e := by
  obtain ⟨f, v⟩ := e
  rw [entryText, List.append_assoc]
  rfl

/-- The names of fields consist of letters. -/
theorem isWord_name (f : Field) : ∀ b ∈ ascii f.name, Text.isWord b = true := by
  cases f <;> decide

/-- Fields have different names. -/
theorem find?_name (f : Field) : (Field.all.find? fun g => ascii g.name == ascii f.name) = some f := by
  cases f <;> decide

/-- A field is read back from its entry, also where its value is left out. -/
theorem readField?_entryBody (e : Field × Nat) : readField? (entryBody e) = some e := by
  obtain ⟨f, v⟩ := e
  have hname : ∀ b ∈ ascii f.name, (b != ':'.toUInt8) = true := by
    intro b hb
    have hword : Text.isWord b = true := isWord_name f b hb
    refine bne_iff_ne.2 ?_
    rintro rfl
    exact absurd hword (by decide)
  by_cases hv : v = 1
  · -- without a colon the name is all there is
    subst hv
    have hbody : entryBody (f, 1) = ascii f.name ++ [] := rfl
    rw [readField?, hbody, List.takeWhile_append_of_pos hname, List.dropWhile_append_of_pos hname,
      List.takeWhile_nil, List.append_nil, find?_name]
    rfl
  · have hbody : entryBody (f, v) = ascii f.name ++ ':'.toUInt8 :: Text.ofNat v := by
      rw [entryBody, if_neg hv]
      rfl
    have hcolon : (':'.toUInt8 != ':'.toUInt8) = false := by decide
    rw [readField?, hbody, List.takeWhile_append_of_pos hname, List.dropWhile_append_of_pos hname,
      List.takeWhile_cons, List.dropWhile_cons, hcolon, if_neg Bool.false_ne_true,
      if_neg Bool.false_ne_true, List.append_nil, find?_name]
    show (Text.readNat? (Text.ofNat v)).bind _ = _
    rw [Text.readNat?_ofNat]
    rfl

/-- No byte of a field with its value is blank. -/
theorem not_mem_entryBody (e : Field × Nat) {b : UInt8} (hb : b = ' '.toUInt8 ∨ b = Text.newline) :
    b ∉ entryBody e := by
  have hword : Text.isWord b = false ∧ Text.isDigit b = false ∧ b ∉ ascii ":" := by
    rcases hb with rfl | rfl <;> decide
  rw [entryBody, List.mem_append]
  rintro (h | h)
  · rw [isWord_name e.1 b h] at hword
    exact absurd hword.1 (by decide)
  · split at h
    · exact List.not_mem_nil h
    · rcases List.mem_append.1 h with h | h
      · exact hword.2.2 h
      · rw [Text.isDigit_of_mem_ofNat h] at hword
        exact absurd hword.2.1 (by decide)

/-- Parts that each stand behind a mark are joined by it. -/
theorem append_flatMap_cons (x : UInt8) (t : Text) (parts : List Text) :
    t ++ parts.flatMap (fun u => x :: u) = List.intercalate [x] (t :: parts) := by
  induction parts generalizing t with
  | nil => rw [List.flatMap_nil, List.append_nil, List.intercalate_singleton]
  | cons u parts ih =>
    rw [List.flatMap_cons, List.cons_append, ih, List.intercalate_cons_cons, List.append_assoc]
    rfl

/-- Parts that each stand behind a mark, split at the marks. -/
theorem splitOn_flatMap_cons {x : UInt8} {parts : List Text} (h : ∀ t ∈ parts, x ∉ t) :
    (parts.flatMap fun t => x :: t).splitOn x = [] :: parts := by
  rw [← List.nil_append (parts.flatMap _), append_flatMap_cons]
  exact List.splitOn_intercalate x (List.forall_mem_cons.2 ⟨List.not_mem_nil, h⟩) (List.cons_ne_nil _ _)

/-- A word is put together again from its fields. -/
theorem ofEntries_entries {w : Word} (hw : w.clear Field.all = 0) : ofEntries w.entries = w := by
  have hparts := pick_or_clear w Field.all
  rw [hw, or_zero] at hparts
  rw [ofEntries, foldl_set_entries, hparts]

theorem mapM_readField? (es : List (Field × Nat)) : (es.map entryBody).mapM readField? = some es := by
  have hread : readField? ∘ entryBody = fun e => pure (id e) := funext readField?_entryBody
  rw [List.mapM_map, hread, List.mapM_pure, List.map_id]
  rfl

/-- The text of a word, as a list of parts. -/
theorem render_eq (w : Word) : w.render = (w.entries.map entryBody).flatMap fun t => ' '.toUInt8 :: t := by
  rw [render, List.flatMap_map, funext entryText_eq]

/-- **A word is read back from its text.** -/
theorem read?_render {w : Word} (hw : w.clear Field.all = 0) : read? w.render = some w := by
  have hparts : ∀ t ∈ w.entries.map entryBody, ' '.toUInt8 ∉ t := by
    intro t ht
    obtain ⟨e, -, rfl⟩ := List.mem_map.1 ht
    exact not_mem_entryBody e (.inl rfl)
  rw [read?, render_eq, splitOn_flatMap_cons hparts]
  dsimp only
  rw [mapM_readField?, Option.map_some, ofEntries_entries hw]

/-- A word is shown on one line. -/
theorem newline_not_mem_render (w : Word) : Text.newline ∉ w.render := by
  rw [render_eq]
  intro h
  obtain ⟨t, ht, hmem⟩ := List.mem_flatMap.1 h
  obtain ⟨e, -, rfl⟩ := List.mem_map.1 ht
  rcases List.mem_cons.1 hmem with hspace | hbody
  · exact absurd hspace (by decide)
  · exact not_mem_entryBody e (.inr rfl) hbody

end Word

namespace Listing

/-! ## Lines -/

/-- A line of a listing. -/
inductive Line where
  /-- An entry of the address table. -/
  | madrs (text : Text)
  /-- The coefficient of a step. -/
  | coef (index : Nat) (value : Int)
  /-- The word of a step. -/
  | step (index : Nat) (word : Word)
deriving DecidableEq, Repr

/-- Reads the coefficient of a step. -/
def Line.ofCoef? (s : Text) : Option Line := do
  let s ← Text.strip? (ascii "COEF[") s
  let (i, s) ← Text.takeNat? s
  let s ← Text.strip? (ascii "] = ") s
  let value ← Text.readInt? s
  return .coef i value

/-- Reads the word of a step. -/
def Line.ofStep? (s : Text) : Option Line := do
  let s ← Text.strip? (ascii "MPRO[") s
  let (i, s) ← Text.takeNat? s
  let s ← Text.strip? (ascii "] =") s
  let word ← Word.read? s
  return .step i word

/-- Reads a line of a listing. -/
def Line.ofText? (s : Text) : Option Line :=
  if (ascii "MADRS").isPrefixOf s then some (.madrs s) else (ofCoef? s).or (ofStep? s)

/-- What has been read of a listing: the address table, the steps, and a coefficient whose step comes
next. -/
structure Reader where
  madrs : List Text
  steps : Program
  coef : Option Int

/-- Takes a line. The address table comes first, and every line of a step has the number of the step. -/
def Reader.take (r : Reader) : Line → Option Reader
  | .madrs text => if r.steps.isEmpty then some { r with madrs := r.madrs ++ [text] } else none
  | .coef i value =>
    if i = r.steps.length ∧ r.coef = none then some { r with coef := some value } else none
  | .step i word =>
    if i = r.steps.length then some { r with steps := r.steps ++ [⟨word, r.coef.getD 0⟩], coef := none }
    else none

/-- Takes the text of a line. -/
def Reader.takeText (r : Reader) (s : Text) : Option Reader :=
  (Line.ofText? s).bind r.take

/-- Reads a listing; its text is empty or ends with a newline. -/
def decode (text : Text) : Option Listing := do
  let r ← text.lines.dropLast.foldlM Reader.takeText ⟨[], [], none⟩
  if text.lines.getLast? = some [] ∧ r.coef = none then return ⟨r.madrs, Table.ofProgram r.steps⟩ else none

/-! ## The lines of a text -/

/-- The line of a coefficient. -/
def coefLine (i : Nat) (value : Int) : Text :=
  ascii "COEF[" ++ (Text.ofNat i ++ (ascii "] = " ++ Text.ofInt value))

/-- The line of a word. -/
def stepLine (i : Nat) (word : Word) : Text :=
  ascii "MPRO[" ++ (Text.ofNat i ++ (ascii "] =" ++ word.render))

/-- The lines of a step. -/
def stepLines (s : Step) (i : Nat) : List Text :=
  (if s.coef = 0 then [] else [coefLine i s.coef]) ++ [stepLine i s.word]

/-- The line of a coefficient is read back. -/
theorem ofText?_coefLine (i : Nat) (value : Int) :
    Line.ofText? (coefLine i value) = some (.coef i value) := by
  have hmadrs : (ascii "MADRS").isPrefixOf (coefLine i value) = false := rfl
  have hindex : Text.takeNat? (Text.ofNat i ++ (ascii "] = " ++ Text.ofInt value)) =
      some (i, ascii "] = " ++ Text.ofInt value) :=
    Text.takeNat?_ofNat_append i (by decide) _
  have hcoef : Line.ofCoef? (coefLine i value) = some (.coef i value) := by
    simp only [Line.ofCoef?, coefLine, Text.strip?_append, Option.bind_eq_bind, Option.bind_some, hindex,
      Text.readInt?_ofInt, Option.pure_def]
  rw [Line.ofText?, hmadrs, if_neg Bool.false_ne_true, hcoef, Option.some_or]

/-- The line of a step is read back, if its word has no bit beside the fields. -/
theorem ofText?_stepLine (i : Nat) {word : Word} (hword : word.clear Field.all = 0) :
    Line.ofText? (stepLine i word) = some (.step i word) := by
  -- the first bytes tell the three sorts of lines apart
  have hmadrs : (ascii "MADRS").isPrefixOf (stepLine i word) = false := rfl
  have hcoef : Line.ofCoef? (stepLine i word) = none := rfl
  have hindex : Text.takeNat? (Text.ofNat i ++ (ascii "] =" ++ word.render)) =
      some (i, ascii "] =" ++ word.render) :=
    Text.takeNat?_ofNat_append i (by decide) _
  have hstep : Line.ofStep? (stepLine i word) = some (.step i word) := by
    simp only [Line.ofStep?, stepLine, Text.strip?_append, Option.bind_eq_bind, Option.bind_some, hindex,
      Word.read?_render hword, Option.pure_def]
  rw [Line.ofText?, hmadrs, if_neg Bool.false_ne_true, hcoef, Option.none_or, hstep]

/-- The text of a step is its lines. -/
theorem stepText_eq (s : Step) (i : Nat) :
    stepText s i = (stepLines s i).flatMap fun line => line ++ [Text.newline] := by
  have hnewline : ascii "\n" = [Text.newline] := rfl
  rw [stepText, stepLines, hnewline]
  split
  · simp only [stepLine, List.nil_append, List.append_assoc, List.flatMap_cons, List.flatMap_nil,
      List.append_nil]
  · simp only [coefLine, stepLine, List.append_assoc, List.cons_append, List.nil_append,
      List.flatMap_cons, List.flatMap_nil, List.append_nil]

/-- The lines of the steps of a program from index `n` on. -/
def linesFrom (n : Nat) (p : Program) : List Text :=
  (p.zipIdx n).flatMap fun (s, i) => stepLines s i

theorem linesFrom_cons (n : Nat) (s : Step) (p : Program) :
    linesFrom n (s :: p) = stepLines s n ++ linesFrom (n + 1) p := by
  rw [linesFrom, List.zipIdx_cons, List.flatMap_cons]
  rfl

/-- The text of a listing is its lines, each with a newline behind it. -/
theorem text_eq (madrs : List Text) (p : Program) :
    madrsText madrs ++ programText p =
      (madrs ++ linesFrom 0 p).flatMap fun line => line ++ [Text.newline] := by
  have hprogram : programText p = (linesFrom 0 p).flatMap fun line => line ++ [Text.newline] := by
    rw [programText, linesFrom, List.flatMap_assoc, funext fun si : Step × Nat => stepText_eq si.1 si.2]
  rw [List.flatMap_append, ← hprogram]
  rfl

/-- Lines that all end in a newline are followed by an empty one. -/
theorem flatMap_newline_eq (ls : List Text) :
    ls.flatMap (fun line => line ++ [Text.newline]) = Text.unlines (ls ++ [[]]) := by
  induction ls with
  | nil => rfl
  | cons line ls ih =>
    obtain ⟨next, rest, hrest⟩ := List.exists_cons_of_ne_nil (List.append_ne_nil_of_right_ne_nil ls
      (List.cons_ne_nil ([] : Text) []))
    rw [List.flatMap_cons, ih, List.cons_append, hrest, Text.unlines, Text.unlines,
      List.intercalate_cons_cons]

/-- Lines that each end with a newline, split at the newlines. -/
theorem lines_flatMap {ls : List Text} (h : ∀ line ∈ ls, Text.newline ∉ line) :
    Text.lines (ls.flatMap fun line => line ++ [Text.newline]) = ls ++ [[]] := by
  rw [flatMap_newline_eq]
  refine List.splitOn_intercalate _ ?_ (List.append_ne_nil_of_right_ne_nil ls (List.cons_ne_nil _ _))
  exact List.forall_mem_append.2 ⟨h, List.forall_mem_singleton.2 List.not_mem_nil⟩

theorem newline_not_mem_ofNat (n : Nat) : Text.newline ∉ Text.ofNat n := by
  intro h
  exact absurd (Text.isDigit_of_mem_ofNat h) (by decide)

theorem newline_not_mem_ofInt (i : Int) : Text.newline ∉ Text.ofInt i := by
  cases i with
  | ofNat n => exact newline_not_mem_ofNat n
  | negSucc n =>
    intro h
    rcases List.mem_cons.1 h with hsign | h
    · exact absurd hsign (by decide)
    · exact newline_not_mem_ofNat _ h

theorem newline_not_mem_stepLines (s : Step) (i : Nat) :
    ∀ line ∈ stepLines s i, Text.newline ∉ line := by
  have hcoef : Text.newline ∉ coefLine i s.coef := by
    simp only [coefLine, List.mem_append, not_or]
    exact ⟨by decide, newline_not_mem_ofNat i, by decide, newline_not_mem_ofInt s.coef⟩
  have hstep : Text.newline ∉ stepLine i s.word := by
    simp only [stepLine, List.mem_append, not_or]
    exact ⟨by decide, newline_not_mem_ofNat i, by decide, s.word.newline_not_mem_render⟩
  refine List.forall_mem_append.2 ⟨?_, List.forall_mem_singleton.2 hstep⟩
  split
  · exact List.forall_mem_nil _
  · exact List.forall_mem_singleton.2 hcoef

/-- No line of a program has a newline in it. -/
theorem newline_not_mem_linesFrom (n : Nat) (p : Program) :
    ∀ line ∈ linesFrom n p, Text.newline ∉ line := by
  intro line hline
  obtain ⟨si, -, hmem⟩ := List.mem_flatMap.1 hline
  exact newline_not_mem_stepLines si.1 si.2 line hmem

/-! ## Reading the lines -/

/-- The entries of the address table are taken one by one before the first step. -/
theorem foldlM_takeText_madrs {madrs : List Text} (r : Reader) (hsteps : r.steps = [])
    (h : ∀ line ∈ madrs, (ascii "MADRS").isPrefixOf line = true) :
    madrs.foldlM Reader.takeText r = some { r with madrs := r.madrs ++ madrs } := by
  induction madrs generalizing r with
  | nil => rw [List.foldlM_nil, List.append_nil]; rfl
  | cons line madrs ih =>
    obtain ⟨hline, h⟩ := List.forall_mem_cons.1 h
    have htake : r.takeText line = some { r with madrs := r.madrs ++ [line] } := by
      rw [Reader.takeText, Line.ofText?, if_pos hline, Option.bind_some, Reader.take, hsteps]
      rfl
    rw [List.foldlM_cons, htake]
    show madrs.foldlM Reader.takeText { r with madrs := r.madrs ++ [line] } = _
    rw [ih { r with madrs := r.madrs ++ [line] } hsteps h, List.append_assoc]
    rfl

/-- The lines of a step add the step. -/
theorem foldlM_takeText_stepLines (r : Reader) (hcoef : r.coef = none) {s : Step}
    (hword : s.word.clear Field.all = 0) :
    (stepLines s r.steps.length).foldlM Reader.takeText r =
      some { r with steps := r.steps ++ [s] } := by
  -- the line of a step takes the coefficient that is waiting, whether there is one or not
  have hstep (coef : Option Int) :
      Reader.takeText { r with coef := coef } (stepLine r.steps.length s.word) =
        some { r with steps := r.steps ++ [⟨s.word, coef.getD 0⟩], coef := none } := by
    rw [Reader.takeText, ofText?_stepLine _ hword, Option.bind_some, Reader.take, if_pos rfl]
  obtain ⟨madrs, steps, coef⟩ := r
  obtain rfl : coef = none := hcoef
  by_cases hzero : s.coef = 0
  · -- without a line of its own the coefficient is zero
    rw [stepLines, if_pos hzero, List.nil_append, List.foldlM_cons, hstep none, Option.getD_none, ← hzero]
    rfl
  · have htake : Reader.takeText ⟨madrs, steps, none⟩ (coefLine steps.length s.coef) =
        some ⟨madrs, steps, some s.coef⟩ := by
      rw [Reader.takeText, ofText?_coefLine, Option.bind_some, Reader.take, if_pos ⟨rfl, rfl⟩]
    rw [stepLines, if_neg hzero, List.cons_append, List.nil_append, List.foldlM_cons, htake]
    show (Reader.takeText ⟨madrs, steps, some s.coef⟩ (stepLine steps.length s.word)).bind _ = _
    rw [hstep (some s.coef)]
    rfl

/-- The lines of a program add its steps. -/
theorem foldlM_takeText_linesFrom (r : Reader) (hcoef : r.coef = none) {p : Program}
    (hwords : ∀ s ∈ p, s.word.clear Field.all = 0) :
    (linesFrom r.steps.length p).foldlM Reader.takeText r = some { r with steps := r.steps ++ p } := by
  induction p generalizing r with
  | nil =>
    rw [List.append_nil]
    rfl
  | cons s p ih =>
    obtain ⟨hs, hwords⟩ := List.forall_mem_cons.1 hwords
    have hlength : (r.steps ++ [s]).length = r.steps.length + 1 := List.length_append
    rw [linesFrom_cons, List.foldlM_append, foldlM_takeText_stepLines r hcoef hs, ← hlength]
    show (linesFrom _ p).foldlM Reader.takeText { r with steps := r.steps ++ [s] } = _
    rw [ih { r with steps := r.steps ++ [s] } hcoef hwords, List.append_assoc]
    rfl

/-- **A listing is read back from its text.** -/
theorem decode_text {madrs : List Text} {p : Program}
    (hmadrs : ∀ line ∈ madrs, (ascii "MADRS").isPrefixOf line = true ∧ Text.newline ∉ line)
    (hwords : ∀ s ∈ p, s.word.clear Field.all = 0) :
    decode (madrsText madrs ++ programText p) = some ⟨madrs, Table.ofProgram p⟩ := by
  have hlines : Text.lines (madrsText madrs ++ programText p) = madrs ++ linesFrom 0 p ++ [[]] := by
    rw [text_eq]
    refine lines_flatMap (List.forall_mem_append.2 ⟨fun line hline => ?_, newline_not_mem_linesFrom 0 p⟩)
    exact (hmadrs line hline).2
  have hread : (madrs ++ linesFrom 0 p).foldlM Reader.takeText ⟨[], [], none⟩ =
      some ⟨madrs, p, none⟩ := by
    rw [List.foldlM_append, foldlM_takeText_madrs _ rfl fun line hline => (hmadrs line hline).1]
    exact foldlM_takeText_linesFrom ⟨madrs, [], none⟩ rfl hwords
  rw [decode, hlines, List.dropLast_concat, hread, List.getLast?_concat]
  rfl

end Listing

end Microcode

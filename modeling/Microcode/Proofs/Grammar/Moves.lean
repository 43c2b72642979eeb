import Microcode.Proofs.Grammar.WholeText

/-!
# Where a text starts does not matter

A parser that starts behind some other text reads what it would read without it, and every position is larger by
the length of that text (`parseAt_append`). Nodes are moved by moving all places in them and nothing else
(`Node.move`).

That a cursor has none of the bytes before it makes no difference to this: what is read at a cursor is what the whole
text has at the index of it (`Grammar.wholeText_of_calls`).
-/

namespace Microcode

variable {n : Nat}

/-! ## Moving values -/

/-- Moves the place inside a summand. -/
def Summand.move (n : Nat) (b : Summand) : Summand :=
  { b with temp := b.temp.map (Located.move n) }

/-- Moves the places of the operands. -/
def Directive.move (n : Nat) : Directive → Directive
  | .madrs index value => .madrs index value
  | .input bank index => .input bank index
  | .output target => .output target
  | .mac x y b => .mac (x.move n) (y.move n) (b.map fun s => (s.map (Summand.move n)).move n)
  | .smode mode => .smode mode
  | .store noFloat destination => .store noFloat (destination.move n)
  | .load noFloat address register => .load noFloat (address.move n) register

namespace Node

mutual

/-- Moves all places in a node. -/
def move (n : Nat) : Node → Node
  | none => none
  | const t => const t
  | list items => list (moveAll n items)
  | keyword x => keyword (x.move n)
  | int x => int (x.move n)
  | text x => text (x.move n)
  | indexed x => indexed (x.move n)
  | temp x => temp (x.move n)
  | address x => address (x.move n)
  | summand x => summand ((x.map (Summand.move n)).move n)
  | directive x => directive ((x.map (Directive.move n)).move n)

/-- Moves all places in a list of nodes. -/
def moveAll (n : Nat) : List Node → List Node
  | [] => []
  | node :: nodes => node.move n :: moveAll n nodes

end

/-- Moving a list of nodes is moving each of them. -/
theorem moveAll_eq_map (n : Nat) (nodes : List Node) : moveAll n nodes = nodes.map (move n) := by
  induction nodes with
  | nil => rfl
  | cons node nodes ih => rw [moveAll, ih, List.map_cons]

end Node

namespace Parser

/-! ## Operands -/

theorem steady_indexed (n : Nat) (kind : Text) : Steady n (Located.move n) (indexed kind).scan := by
  refine Steady.located (f := id) ?_
  exact (steady_keyword n kind).bind fun _ => (steady_const n _).token.bind fun _ =>
    (steady_int n).token.bind fun _ => .pure rfl

theorem steady_temp (n : Nat) : Steady n (Located.move n) temp.scan := by
  refine Steady.located (f := id) ?_
  exact ((steady_const n _).wrapped ((steady_indexed n _).spaced .gaps)
    ((steady_const n _).spaced .gaps)).bind fun _ => .pure rfl

theorem steady_address (n : Nat) : Steady n (Located.move n) address.scan := by
  refine Steady.located (f := id) ?_
  refine (steady_const n _).optional.bind fun opening => (steady_indexed n _).token.bind fun operand =>
    (steady_const n _).optional.token.bind fun plus => (steady_const n _).optional.token.bind fun closing =>
    (steady_keyword n _).optional.token.bind fun adrs => .pure ?_
  simp only [Option.isSome_map]
  rfl

/-- The place of a summand moves with the text, and so does the place inside it. -/
theorem steady_summand (n : Nat) :
    Steady n (fun l => (l.map (Summand.move n)).move n) summand.scan := by
  refine Steady.located ?_
  have hsign : Steady n id (oneOf [(mark "+").map fun _ => false, (mark "-").map fun _ => true]).scan := by
    refine .oneOf (List.forall_mem_cons.2 ⟨?_, List.forall_mem_singleton.2 ?_⟩)
    · exact (steady_const n _).map fun _ => rfl
    · exact (steady_const n _).map fun _ => rfl
  have hregister : Steady n (Option.map (Located.move n))
      (oneOf [(word "acc").map fun _ => none, temp.map some]).scan := by
    refine .oneOf (List.forall_mem_cons.2 ⟨?_, List.forall_mem_singleton.2 ?_⟩)
    · exact (steady_keyword n _).map fun _ => rfl
    · exact (steady_temp n).map fun _ => rfl
  refine hsign.optional.bind fun sign => hregister.token.bind fun register => .pure ?_
  rw [Option.map_id]
  rfl

theorem steady_wordFor {α : Type} (n : Nat) (s : String) (a : α) :
    Steady n (Located.move n) (wordFor s a).scan :=
  (steady_keyword n _).map fun _ => rfl

theorem steady_multiplicand (n : Nat) : Steady n (Located.move n) multiplicand.scan := by
  refine .oneOf (List.forall_mem_cons.2 ⟨steady_wordFor n _ _, List.forall_mem_singleton.2 ?_⟩)
  exact (steady_temp n).map fun _ => rfl

theorem steady_factor (n : Nat) : Steady n (Located.move n) factor.scan := by
  refine .oneOf (List.forall_mem_cons.2 ⟨steady_wordFor n _ _, List.forall_mem_cons.2
    ⟨steady_wordFor n _ _, List.forall_mem_cons.2 ⟨steady_wordFor n _ _, List.forall_mem_singleton.2 ?_⟩⟩⟩)
  exact (steady_int n).map fun _ => rfl

theorem steady_destination (n : Nat) : Steady n (Located.move n) destination.scan := by
  refine .oneOf (List.forall_mem_cons.2 ⟨?_, List.forall_mem_singleton.2 ?_⟩)
  · exact (steady_temp n).map fun _ => rfl
  · exact (steady_address n).map fun _ => rfl

theorem steady_opcode (n : Nat) (plain noFloat : String) : Steady n id (opcode plain noFloat).scan := by
  refine .oneOf (List.forall_mem_cons.2 ⟨?_, List.forall_mem_singleton.2 ?_⟩)
  · exact (steady_keyword n _).map fun _ => rfl
  · exact (steady_keyword n _).map fun _ => rfl

theorem steady_outputTarget (n : Nat) : Steady n id outputTarget.scan := by
  refine .oneOf (List.forall_mem_cons.2 ⟨?_, List.forall_mem_cons.2 ⟨?_, List.forall_mem_cons.2 ⟨?_,
    List.forall_mem_singleton.2 ?_⟩⟩⟩)
  · exact (steady_keyword n _).map fun _ => rfl
  · exact (steady_keyword n _).map fun _ => rfl
  · exact (steady_keyword n _).map fun _ => rfl
  · exact (steady_indexed n _).map fun _ => rfl

/-- A choice between members of a family whose values have no places. -/
theorem Steady.oneOf_map {ι α β : Type} {p : ι → Parser α} {f : α → α} {φ : ι → α → β}
    (h : ∀ i, Steady n f (p i).scan) (hφ : ∀ i a, φ i (f a) = φ i a) (l : List ι) :
    Steady n id (Parser.oneOf (l.map fun i => (p i).map (φ i))).scan := by
  refine .oneOf fun q hq => ?_
  obtain ⟨i, -, rfl⟩ := List.mem_map.1 hq
  exact (h i).map (hφ i)

end Parser

/-! ## Directives and grammars -/

open Microcode.Parser

/-- The places of the operands of a directive move with the text. -/
theorem DirectiveKind.steady_scan (n : Nat) (k : DirectiveKind) : Steady n (Directive.move n) k.scan := by
  -- each part is read where the one before it has ended, so the parts move together
  cases k with
  | madrs =>
    exact (steady_const n _).bind fun _ => (steady_const n _).token.bind fun _ =>
      (steady_int n).token.bind fun _ => (steady_const n _).token.bind fun _ =>
      (steady_const n _).token.bind fun _ => (steady_rest n).token.bind fun _ => .pure rfl
  | input =>
    exact (steady_keyword n _).bind fun _ => (Steady.oneOf_map (fun b : Bank => steady_indexed n (ascii b.name))
      (fun _ _ => rfl) Bank.all).token.bind fun _ => .pure rfl
  | output =>
    exact (steady_keyword n _).bind fun _ => (steady_outputTarget n).token.bind fun _ => .pure rfl
  | mac =>
    have hsummand : Steady n (fun l => (l.map (Summand.move n)).move n)
        (preceded (mark ",") (spaced .gaps summand)).scan :=
      (steady_const n _).bind fun _ => (steady_summand n).spaced .gaps
    exact (steady_keyword n _).bind fun _ => (steady_multiplicand n).token.bind fun _ =>
      (steady_const n _).token.bind fun _ => (steady_factor n).token.bind fun _ =>
      hsummand.optional.token.bind fun _ => .pure rfl
  | smode =>
    exact (steady_keyword n _).bind fun _ => (Steady.oneOf_map (fun m : ShiftMode => steady_keyword n
      (ascii m.name)) (fun _ _ => rfl) ShiftMode.all).token.bind fun _ => .pure rfl
  | store =>
    exact (steady_opcode n _ _).bind fun _ => (steady_destination n).token.bind fun _ => .pure rfl
  | load =>
    exact (steady_opcode n _ _).bind fun _ => (steady_address n).token.bind fun _ =>
      (steady_const n _).token.bind fun _ => (steady_indexed n _).token.bind fun _ => .pure rfl

namespace Grammar

mutual

/-- What a grammar reads moves with the text. -/
theorem steady_scan (n : Nat) : (g : Grammar) → Steady n (Node.move n) g.parser.scan
  | none => .pure rfl
  | rest => (steady_rest n).map fun _ => rfl
  | int => (steady_int n).map fun _ => rfl
  | temp => (steady_temp n).map fun _ => rfl
  | address => (steady_address n).map fun _ => rfl
  | summand => (steady_summand n).map fun _ => rfl
  | directive k => (k.steady_scan n).located.map fun _ => rfl
  | const t => (steady_const n t).map fun _ => rfl
  | keyword t => (steady_keyword n t).map fun _ => rfl
  | indexed kind => (steady_indexed n kind).map fun _ => rfl
  | optional g => (steady_scan n g).optional.map fun node => by cases node <;> rfl
  | spaced separators g => (steady_scan n g).spaced separators
  | wrapped opening g closing =>
    (steady_scan n opening).wrapped (steady_scan n g) (steady_scan n closing)
  | all parts => (Steady.all (steady_scans n parts)).map fun nodes => by
      rw [Node.move, Node.moveAll_eq_map]
  | any alternatives => .oneOf (steady_scans n alternatives)

theorem steady_scans (n : Nat) : (gs : List Grammar) → ∀ p ∈ parsers gs, Steady n (Node.move n) p.scan
  | [] => fun _ hp => absurd hp List.not_mem_nil
  | g :: gs => List.forall_mem_cons.2 ⟨steady_scan n g, steady_scans n gs⟩

end

end Grammar

/-- Behind a text, the cursor has the same bytes left at a larger position. -/
theorem Cursor.ofText_append (u b : Text) (st : Nat) :
    ofText (u ++ b) (u.length + st) = (ofText b st).move u.length := by
  rw [ofText, ofText, move, List.drop_append]
  simp

/-- **What precedes the start does not matter.** Behind a text `u` a parser succeeds or stops as it does without it,
for the same cause, and every position is larger by the length of `u`. This is not for want of the bytes of `u`:
every token and all separators that are read on the way are read in the whole text, by index. -/
theorem parseAt_append (g : Grammar) (u b : Text) (st : Nat) :
    (g.parser.parseAt (u ++ b) (u.length + st) =
      match g.parser.parseAt b st with
      | .ok (node, c) => .ok (node.move u.length, c.move u.length)
      | .error e => .error (e.move u.length)) ∧
    ∀ h c, Relation.ReflTransGen Grammar.Calls (g, .ofText (u ++ b) (u.length + st)) (h, c) →
      h.WholeText (u ++ b) c := by
  refine ⟨?_, fun h c => Grammar.wholeText_of_calls⟩
  unfold Parser.parseAt
  rw [Cursor.ofText_append]
  obtain ⟨node, _, c, h, hmoved, rfl⟩ | ⟨e, h, hmoved⟩ :=
    (g.steady_scan u.length (Cursor.ofText b st)).exists_of
  · rw [h, hmoved]
  · rw [h, hmoved]

/-- A register behind another token. Its bracket is called for through its body, and read in the whole text. -/
theorem parseAt_append_temp :
    Grammar.temp.parser.parseAt (ascii "MAC " ++ ascii "[temp:3]") 4 =
        .ok (.temp ⟨⟨4, 12⟩, 3⟩, .ofText (ascii "MAC " ++ ascii "[temp:3]") 12) ∧
      Relation.ReflTransGen Grammar.Calls (.temp, .ofText (ascii "MAC " ++ ascii "[temp:3]") 4)
        (.mark "[", .ofText (ascii "MAC " ++ ascii "[temp:3]") 4) ∧
      (Grammar.mark "[").WholeText (ascii "MAC " ++ ascii "[temp:3]")
        (.ofText (ascii "MAC " ++ ascii "[temp:3]") 4) := by
  have hread : Grammar.temp.parser.parseAt (ascii "[temp:3]") 0 =
      .ok (.temp ⟨⟨0, 8⟩, 3⟩, .ofText (ascii "[temp:3]") 8) := rfl
  have hmoved := parseAt_append .temp (ascii "MAC ") (ascii "[temp:3]") 0
  rw [hread] at hmoved
  have hcalls : Relation.ReflTransGen Grammar.Calls (.temp, .ofText (ascii "MAC " ++ ascii "[temp:3]") 4)
      (.mark "[", .ofText (ascii "MAC " ++ ascii "[temp:3]") 4) :=
    .tail (.single (.body rfl)) .opening
  exact ⟨hmoved.1, hcalls, hmoved.2 _ _ hcalls⟩

end Microcode

import Microcode.Grammar
import Microcode.Proofs.Parser.Outline

/-!
# Where the operands of directives lie

The outlines of operands, directives and nodes, and that their parsers stay inside. A multiplication has its
multiplicand, its factor and its summand inside it, one behind another; a summand has the temporary register that
it reads inside it.
-/

namespace Microcode

/-! ## Outlines -/

/-- What is inside a summand. -/
def Summand.outline (b : Summand) : List Outline :=
  b.temp.elim [] Located.leaf

/-- The operands of a directive that have a place, in their order. -/
def Directive.outline : Directive → List Outline
  | .mac x y b => x.leaf ++ y.leaf ++ b.elim [] (Located.outline Summand.outline)
  | .store _ destination => destination.leaf
  | .load _ address _ => address.leaf
  | .madrs .. | .input .. | .output .. | .smode .. => []

namespace Parser

/-! ## Operands -/

/-- An indexed operand is a stretch with nothing inside. -/
theorem inside_indexed (kind : Text) : Inside [] (indexed kind).scan Located.leaf := by
  refine Inside.located (o := fun _ => []) ?_
  exact (inside_keyword kind).skip fun _ => (inside_const _).token.skip fun _ =>
    inside_int.token.skip fun _ => .pure rfl

theorem inside_temp : Inside [] temp.scan Located.leaf := by
  refine Inside.located (o := fun _ => []) ?_
  have hinner := (inside_indexed (ascii "temp")).spaced .gaps
  exact ((inside_const _).wrapped hinner ((inside_const _).spaced .gaps)).skip fun _ => .pure rfl

theorem inside_address : Inside [] address.scan Located.leaf := by
  refine Inside.located (o := fun _ => []) ?_
  exact (inside_const _).optional.skip fun _ => (inside_indexed _).token.skip fun _ =>
    (inside_const _).optional.token.skip fun _ => (inside_const _).optional.token.skip fun _ =>
    (inside_keyword _).optional.token.skip fun _ => .pure rfl

/-- A summand has the register that it reads inside it. -/
theorem inside_summand : Inside [] summand.scan (Located.outline Summand.outline) := by
  refine Inside.located (o := Summand.outline) ?_
  have hsign : Inside [] (oneOf [(mark "+").map fun _ => false, (mark "-").map fun _ => true]).scan
      fun _ => [] := by
    refine .oneOf (List.forall_mem_cons.2 ⟨?_, List.forall_mem_singleton.2 ?_⟩)
    · exact (inside_const _).map fun _ => rfl
    · exact (inside_const _).map fun _ => rfl
  have hregister : Inside [] (oneOf [(word "acc").map fun _ => none, temp.map some]).scan
      fun register => register.elim [] Located.leaf := by
    refine .oneOf (List.forall_mem_cons.2 ⟨?_, List.forall_mem_singleton.2 ?_⟩)
    · exact (inside_keyword _).constant fun _ => rfl
    · exact inside_temp.map fun _ => rfl
  exact hsign.optional.skip fun _ => hregister.token.andThen fun _ => .pure rfl

theorem inside_word {α : Type} (s : String) (a : α) : Inside [] (wordFor s a).scan Located.leaf :=
  (inside_keyword _).map fun _ => rfl

theorem inside_multiplicand : Inside [] multiplicand.scan Located.leaf := by
  refine .oneOf (List.forall_mem_cons.2 ⟨inside_word _ _, List.forall_mem_singleton.2 ?_⟩)
  exact inside_temp.map fun _ => rfl

theorem inside_factor : Inside [] factor.scan Located.leaf := by
  refine .oneOf (List.forall_mem_cons.2 ⟨inside_word _ _, List.forall_mem_cons.2 ⟨inside_word _ _,
    List.forall_mem_cons.2 ⟨inside_word _ _, List.forall_mem_singleton.2 ?_⟩⟩⟩)
  exact inside_int.map fun _ => rfl

theorem inside_destination : Inside [] destination.scan Located.leaf := by
  refine .oneOf (List.forall_mem_cons.2 ⟨?_, List.forall_mem_singleton.2 ?_⟩)
  · exact inside_temp.map fun _ => rfl
  · exact inside_address.map fun _ => rfl

/-- An operation code has no place of its own. -/
theorem inside_opcode (plain noFloat : String) :
    Inside [] (opcode plain noFloat).scan fun _ => [] := by
  refine .oneOf (List.forall_mem_cons.2 ⟨?_, List.forall_mem_singleton.2 ?_⟩)
  · exact (inside_keyword _).constant fun _ => rfl
  · exact (inside_keyword _).constant fun _ => rfl

theorem inside_outputTarget : Inside [] outputTarget.scan fun _ => [] := by
  refine .oneOf (List.forall_mem_cons.2 ⟨?_, List.forall_mem_cons.2 ⟨?_, List.forall_mem_cons.2 ⟨?_,
    List.forall_mem_singleton.2 ?_⟩⟩⟩)
  · exact (inside_keyword _).constant fun _ => rfl
  · exact (inside_keyword _).constant fun _ => rfl
  · exact (inside_keyword _).constant fun _ => rfl
  · exact (inside_indexed _).constant fun _ => rfl

/-- A choice between members of a family whose places are not kept. -/
theorem Inside.oneOf_map {ι α β : Type} {f : ι → Parser α} {g : ι → α → β} {o : α → List Outline}
    (h : ∀ i, Inside [] (f i).scan o) (l : List ι) :
    Inside [] (Parser.oneOf (l.map fun i => (f i).map (g i))).scan fun _ => [] := by
  refine .oneOf fun p hp => ?_
  obtain ⟨i, -, rfl⟩ := List.mem_map.1 hp
  exact (h i).constant fun _ => rfl

end Parser

/-! ## Directives -/

open Microcode.Parser in
/-- Every kind of directive stays inside. -/
theorem DirectiveKind.inside_scan (k : DirectiveKind) : Inside [] k.scan Directive.outline := by
  cases k with
  | madrs =>
    exact (inside_const _).skip fun _ => (inside_const _).token.skip fun _ => inside_int.token.skip fun _ =>
      (inside_const _).token.skip fun _ => (inside_const _).token.skip fun _ =>
      inside_rest.token.skip fun _ => .pure rfl
  | input =>
    exact (inside_keyword _).skip fun _ => (Inside.oneOf_map (fun b : Bank => inside_indexed (ascii b.name))
      Bank.all).token.skip fun _ => .pure rfl
  | output =>
    exact (inside_keyword _).skip fun _ => inside_outputTarget.token.skip fun _ => .pure rfl
  | mac =>
    exact (inside_keyword _).skip fun _ => inside_multiplicand.token.andThen fun _ =>
      (inside_const _).token.skip fun _ => inside_factor.token.andThen fun _ =>
      ((inside_const _).preceded (inside_summand.spaced .gaps)).optional.token.andThen fun _ => .pure rfl
  | smode =>
    exact (inside_keyword _).skip fun _ => (Inside.oneOf_map (fun m : ShiftMode => inside_keyword
      (ascii m.name)) ShiftMode.all).token.skip fun _ => .pure rfl
  | store =>
    exact (inside_opcode _ _).skip fun _ => inside_destination.token.andThen fun _ => .pure rfl
  | load =>
    exact (inside_opcode _ _).skip fun _ => inside_address.token.andThen fun _ =>
      (inside_const _).token.skip fun _ => (inside_indexed _).token.skip fun _ => .pure rfl

/-! ## Grammars -/

namespace Node

mutual

/-- The outline of a node. Constants have no place, and a list has none of its own. -/
def outline : Node → List Outline
  | none | const _ => []
  | list items => outlines items
  | keyword x | text x => x.leaf
  | int x | temp x => x.leaf
  | indexed x => x.leaf
  | address x => x.leaf
  | summand x => x.outline Summand.outline
  | directive x => x.outline Directive.outline

/-- The outline of one node after another. -/
def outlines : List Node → List Outline
  | [] => []
  | node :: nodes => node.outline ++ outlines nodes

end

/-- The outline of a list is the outlines of its nodes one after another. -/
theorem outlines_eq_flatMap (nodes : List Node) : outlines nodes = nodes.flatMap outline := by
  induction nodes with
  | nil => rfl
  | cons node nodes ih => rw [outlines, ih, List.flatMap_cons]

end Node

namespace Grammar

open Microcode.Parser

mutual

/-- Every parser that a grammar describes stays inside. -/
theorem inside_scan : (g : Grammar) → Inside [] g.parser.scan Node.outline
  | none => .pure rfl
  | rest => inside_rest.map fun _ => rfl
  | int => inside_int.map fun _ => rfl
  | temp => inside_temp.map fun _ => rfl
  | address => inside_address.map fun _ => rfl
  | summand => inside_summand.map fun _ => rfl
  | directive k => k.inside_scan.located.map fun _ => rfl
  | const t => (inside_const t).map fun _ => rfl
  | keyword t => (inside_keyword t).map fun _ => rfl
  | indexed kind => (inside_indexed kind).map fun _ => rfl
  | optional g => (inside_scan g).optional.map fun node => by cases node <;> rfl
  | spaced separators g => (inside_scan g).spaced separators
  | wrapped opening g closing => (inside_scan opening).wrapped (inside_scan g) (inside_scan closing)
  | all parts => (Inside.all (inside_scans parts)).map Node.outlines_eq_flatMap
  | any alternatives => .oneOf (inside_scans alternatives)

theorem inside_scans : (gs : List Grammar) → ∀ p ∈ parsers gs, Inside [] p.scan Node.outline
  | [] => fun _ hp => absurd hp List.not_mem_nil
  | g :: gs => List.forall_mem_cons.2 ⟨inside_scan g, inside_scans gs⟩

end

end Grammar

end Microcode

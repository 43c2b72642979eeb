import Microcode.Proofs.Compile.RoundTrip
import Microcode.Proofs.Directive.Recognition
import Microcode.Proofs.Generator.Workspace

/-!
# Directives can be tried in any order

A line is tried as one kind of directive after another, and the first kind that accepts it handles it. The first word
of a line tells its kind, whatever text the line goes on with, so at most one kind accepts a line
(`DirectiveKind.eq_of_readLine`). Hence what is found does not depend on the order (`Directive.read?_eq_some_iff`).

`Workspace.tryKinds?` is the search together with the handlers. A handler is fit for the directives of its own kind
only, and is given no other ones (`Workspace.tryKinds?_eq`).
-/

namespace Microcode

open Microcode.Parser

/-! ## The kind of a line -/

namespace DirectiveKind

variable {k k' : DirectiveKind} {line : Text}

/-- What a kind reads is of this kind. -/
theorem kind_of_readLine {d : Located Directive} (h : k.parser.readLine line = .ok d) : d.value.phrase.kind = k :=
  ((k.readLine_parser_eq_ok_iff line d.value.phrase).1 ⟨d, h, rfl⟩).1

/-- The first word of a line that a kind accepts is one of its words. -/
theorem takeWhile_mem_words_of_readLine {d : Located Directive} (h : k.parser.readLine line = .ok d) :
    (skipGaps line).takeWhile Text.isWord ∈ k.words := by
  obtain ⟨hkind, r, hr, -⟩ := (k.readLine_parser_eq_ok_iff line d.value.phrase).1 ⟨d, h, rfl⟩
  rw [← hkind]
  exact Phrase.takeWhile_mem_words hr

/-- At most one kind accepts a line. -/
theorem eq_of_readLine {d d' : Located Directive} (h : k.parser.readLine line = .ok d)
    (h' : k'.parser.readLine line = .ok d') : k = k' :=
  eq_of_mem_words (takeWhile_mem_words_of_readLine h) (takeWhile_mem_words_of_readLine h')

/-- Whether a kind accepts a line. -/
def accepts (line : Text) (k : DirectiveKind) : Bool :=
  (k.parser.readLine line).isOk

/-- A kind that accepts a line reads a directive from it. -/
theorem exists_of_accepts (h : accepts line k = true) : ∃ d, k.parser.readLine line = .ok d := by
  unfold accepts at h
  cases hread : k.parser.readLine line with
  | ok d => exact ⟨d, rfl⟩
  | error e =>
    rw [hread] at h
    cases h

/-- At most one kind accepts a line. -/
theorem countP_accepts_le_one (line : Text) : all.countP (accepts line) ≤ 1 := by
  have hnodup : (all.filter (accepts line)).Nodup := List.Nodup.filter _ (by decide)
  -- two kinds that accept a line are the same
  have heq : ∀ k ∈ all.filter (accepts line), ∀ k' ∈ all.filter (accepts line), k = k' := by
    intro k hk k' hk'
    obtain ⟨d, hd⟩ := exists_of_accepts (List.mem_filter.1 hk).2
    obtain ⟨d', hd'⟩ := exists_of_accepts (List.mem_filter.1 hk').2
    exact eq_of_readLine hd hd'
  rw [List.countP_eq_length_filter]
  cases hfilter : all.filter (accepts line) with
  | nil => exact Nat.zero_le 1
  | cons first rest =>
    rw [hfilter] at hnodup heq
    cases rest with
    | nil => exact Nat.le_refl 1
    | cons second rest =>
      -- two different members of the list would have to be equal
      have hsecond : second ∈ first :: second :: rest := List.mem_cons_of_mem first List.mem_cons_self
      have hmem : first ∈ second :: rest := by
        rw [heq first List.mem_cons_self second hsecond]
        exact List.mem_cons_self
      exact absurd hmem (List.nodup_cons.1 hnodup).1

end DirectiveKind

namespace Directive

variable {kinds : List DirectiveKind} {line : Text} {d : Directive}

/-- If every kind is tried, the directive on a line is the one that some kind reads there. -/
theorem read?_eq_some_iff (hkinds : ∀ k, k ∈ kinds) :
    read? kinds line = some d ↔
      ∃ (k : DirectiveKind) (l : Located Directive), k.parser.readLine line = .ok l ∧ l.value = d := by
  constructor
  · intro h
    obtain ⟨k, -, l, hl, hd⟩ := exists_readLine h
    exact ⟨k, l, hl, hd⟩
  · rintro ⟨k, l, hl, rfl⟩
    cases hread : read? kinds line with
    | none =>
      have hnone := List.findSome?_eq_none_iff.1 hread k (hkinds k)
      rw [hl] at hnone
      cases hnone
    | some d' =>
      -- the kind that is found first is the only one
      obtain ⟨k', -, l', hl', rfl⟩ := exists_readLine hread
      obtain rfl := DirectiveKind.eq_of_readLine hl hl'
      rw [Except.ok.inj (hl.symm.trans hl')]

/-- The order in which the kinds are tried does not matter. -/
theorem read?_eq_all (hkinds : ∀ k, k ∈ kinds) (line : Text) : read? kinds line = read? DirectiveKind.all line := by
  apply Option.ext
  intro d
  rw [read?_eq_some_iff hkinds, read?_eq_some_iff DirectiveKind.mem_all]

end Directive

/-! ## The search with its handlers -/

namespace Workspace

/-- What a kind does with a directive on a line. All kinds but one look at the directive, which has to be of their
kind then. -/
def handler? (line : Text) : DirectiveKind → Directive → Option (Action Unit)
  | .madrs, _ => some (modify fun s => { s with madrs := s.madrs ++ [line] })
  | .input, .input bank i => some (handleInput bank i)
  | .output, .output target => some (handleOutput target)
  | .mac, .mac x y b => some (handleMac x.value y.value (b.map (·.value)))
  | .smode, .smode mode => some (modify fun s => { s with mode })
  | .store, .store noFloat destination => some (handleStore noFloat destination.value)
  | .load, .load noFloat address register => some (handleLoad noFloat address.value register)
  | _, _ => none

/-- A directive is handled by its own kind as it is handled in general. -/
theorem handler?_eq {line : Text} {k : DirectiveKind} {d : Directive} (h : d.phrase.kind = k) :
    handler? line k d = some (handle line d) := by
  subst h
  cases d <;> rfl

/-- Performs what is to be done on a trimmed line. Of the steps, those before the line are told from the added ones, and
if the line is rejected, only the former stay. -/
def attempt? (s : Workspace) (n : Int) (text : Text) (action : Action Unit) : Option Workspace := do
  let (outcome, t) := perform action s
  let (earlier, _) ← cutAt? t.words s.words.length
  match outcome with
  | .ok () => return t
  | .error cause => return { t with words := earlier }.report n (.invalid text cause)

/-- Tries the kinds in their order on a trimmed line. -/
def tryKinds? (s : Workspace) (n : Int) (text : Text) : List DirectiveKind → Option Workspace
  | [] => some (s.report n (.unhandled text))
  | k :: kinds =>
    match k.parser.readLine text with
    | .error _ => tryKinds? s n text kinds
    | .ok d => (handler? text k d.value).bind (s.attempt? n text)

/-- Takes a line, trying the kinds in the given order. -/
def lineWith? (kinds : List DirectiveKind) (s : Workspace) (n : Int) (line : Text) : Option Workspace := do
  let text := line.trim
  if ← silent? text then return s else s.tryKinds? n text kinds

/-- The kind that accepts a line handles it. -/
theorem tryKinds?_eq (s : Workspace) (n : Int) (text : Text) (kinds : List DirectiveKind) :
    s.tryKinds? n text kinds =
      match Directive.read? kinds text with
      | none => some (s.report n (.unhandled text))
      | some d => s.attempt? n text (handle text d) := by
  induction kinds with
  | nil => rfl
  | cons k kinds ih =>
    unfold tryKinds? Directive.read?
    rw [List.findSome?_cons]
    cases hread : k.parser.readLine text with
    | error e => exact ih
    | ok d =>
      dsimp only
      rw [handler?_eq (DirectiveKind.kind_of_readLine hread)]
      rfl

/-- A search in any order takes a line as the search in the usual order does. -/
theorem lineWith?_eq {kinds : List DirectiveKind} (hkinds : ∀ k, k ∈ kinds) (s : Workspace) (n : Int) (line : Text) :
    s.lineWith? kinds n line = s.line? n line := by
  simp only [lineWith?, line?, tryKinds?_eq, Directive.read?_eq_all hkinds]
  rfl

end Workspace

/-- **The order of the directives does not matter.** At most one kind of directive accepts a line. So whatever order the
kinds are tried in, a line does the same in every state of a generator: the steps with their coefficients, the address
table, the selected input, the mode and the diagnostics are the same behind it. The same holds where a line is handled
effect by effect, and there every handler is given a directive of its own kind. -/
theorem dispatch_is_unambiguous (text : Text) :
    DirectiveKind.all.countP (DirectiveKind.accepts text) ≤ 1 ∧
    ∀ kinds : List DirectiveKind, kinds.Perm DirectiveKind.all → ∀ n : Int,
      (∀ g : Generator, g.lineWith kinds n text = g.line n text) ∧
      ∀ s : Workspace, s.lineWith? kinds n text = s.line? n text := by
  refine ⟨DirectiveKind.countP_accepts_le_one text, fun kinds hperm n => ?_⟩
  have hkinds : ∀ k, k ∈ kinds := fun k => hperm.mem_iff.2 k.mem_all
  refine ⟨fun g => ?_, fun s => Workspace.lineWith?_eq hkinds s n text⟩
  simp only [Generator.line, Generator.lineWith, Instruction.ofLineWith, Directive.read?_eq_all hkinds]

/-- An entry of the address table is free text, and the text of this one is a directive of another kind, which is tried
first if the order is reversed. -/
theorem dispatch_is_unambiguous_reversed :
    DirectiveKind.all.reverse.Perm DirectiveKind.all ∧
    DirectiveKind.all.filter (DirectiveKind.accepts (ascii "MADRS[1] = SMODE sat")) = [.madrs] ∧
    DirectiveKind.all.filter (DirectiveKind.accepts (ascii "SMODE sat")) = [.smode] ∧
    Generator.initial.lineWith DirectiveKind.all.reverse 7 (ascii "MADRS[1] = SMODE sat") =
      Generator.initial.line 7 (ascii "MADRS[1] = SMODE sat") := by
  have hperm : DirectiveKind.all.reverse.Perm DirectiveKind.all := List.reverse_perm DirectiveKind.all
  obtain ⟨-, hline⟩ := dispatch_is_unambiguous (ascii "MADRS[1] = SMODE sat")
  exact ⟨hperm, by decide +kernel, by decide +kernel, (hline _ hperm 7).1 Generator.initial⟩

end Microcode

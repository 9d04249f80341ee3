import StyleNest.Proofs.Sheet.Concatenation
import StyleNest.Session

/-!
Sheets gathered in a session.

A session puts the rules of each sheet behind those it has. Since a sheet reads the same behind any
other one, it holds the rules of one sheet, in which all that it has accepted is written in order.
-/

namespace StyleNest

open Text Sheet

namespace Session

/-- The texts that are sheets. -/
def accepted (sources : List Text) : List Text := sources.filter fun s => (Sheet.parse s).isOk

variable {s : Session} {source : Text}

lemma accepted_cons_of_ok {rs : List Rule} (h : Sheet.parse source = .ok rs)
    (sources : List Text) : accepted (source :: sources) = source :: accepted sources := by
  rw [accepted, List.filter_cons, h]
  rfl

lemma accepted_cons_of_error {e : Sheet.Error} (h : Sheet.parse source = .error e)
    (sources : List Text) : accepted (source :: sources) = accepted sources := by
  rw [accepted, List.filter_cons, h]
  rfl

lemma run_cons (s : Session) (x : Step) (xs : List Step) :
    (s.run (x :: xs)).1 = ((s.step x).1.run xs).1 := rfl

lemma run_append (s : Session) (xs ys : List Step) :
    (s.run (xs ++ ys)).1 = ((s.run xs).1.run ys).1 := by
  induction xs generalizing s with
  | nil => rfl
  | cons x xs ih =>
    rw [List.cons_append, run_cons, ih, run_cons]

lemma step_parse_of_ok {rs : List Rule} (h : Sheet.parse source = .ok rs) :
    (s.step (.parse source)).1 = ⟨s.tree, s.rules ++ rs⟩ := by
  rw [step, h]

lemma step_parse_of_error {e : Sheet.Error} (h : Sheet.parse source = .error e) :
    (s.step (.parse source)).1 = s := by
  rw [step, h]

/-- A session that holds the rules of a sheet goes on to hold those of the sheet that the texts it
accepts make with it. -/
lemma run_parse (sources : List Text) (h : Sheet.parse source = .ok s.rules) :
    ∃ rules, Sheet.parse (source ++ (accepted sources).flatten) = .ok rules ∧
      (s.run (sources.map .parse)).1 = ⟨s.tree, rules⟩ := by
  induction sources generalizing s source with
  | nil => exact ⟨s.rules, by simpa [accepted] using h, rfl⟩
  | cons x xs ih =>
    rw [List.map_cons, run_cons]
    cases hx : Sheet.parse x with
    | ok rs =>
      have hjoined : Sheet.parse (source ++ x) = .ok (s.rules ++ rs) := by
        rw [parse_append h, hx]
        rfl
      obtain ⟨rules, hr, hs⟩ := ih (s := ⟨s.tree, s.rules ++ rs⟩) hjoined
      rw [accepted_cons_of_ok hx, List.flatten_cons, ← List.append_assoc, step_parse_of_ok hx]
      exact ⟨rules, hr, hs⟩
    | error e =>
      rw [accepted_cons_of_error hx, step_parse_of_error hx]
      exact ih h

end Session

/-- **Reading commutes with writing sheets one behind the other.** Behind a sheet a second one adds
its rules, and a text that is refused is refused with the same character and chain, at the place
that it has there. So a session that parses sheets and builds has the tree of one sheet, made of
those that it has accepted. -/
theorem parse_append_and_build :
    (∀ (s t : Text) (rs : List Rule), Sheet.parse s = .ok rs →
      (∀ rs', Sheet.parse t = .ok rs' → Sheet.parse (s ++ t) = .ok (rs ++ rs')) ∧
      ∀ e, Sheet.parse t = .error e →
        ∃ e', Sheet.parse (s ++ t) = .error e' ∧ e'.diagnostic = e.diagnostic.behind s) ∧
    ∀ sources : List Text, ∃ rules,
      Sheet.parse (Session.accepted sources).flatten = .ok rules ∧
        (Session.initial.run (sources.map .parse ++ [.build])).1 = ⟨Tree.ofRules rules, rules⟩ := by
  refine ⟨fun s t rs hs => ⟨fun rs' ht => ?_, fun e ht => ?_⟩, fun sources => ?_⟩
  · rw [parse_append hs, ht]
    rfl
  · refine ⟨e.behind s, ?_, Error.diagnostic_behind s e⟩
    rw [parse_append hs, ht]
    rfl
  · have hempty : Sheet.parse [] = .ok Session.initial.rules := rfl
    obtain ⟨rules, hr, hs⟩ := Session.run_parse sources hempty
    refine ⟨rules, hr, ?_⟩
    rw [Session.run_append, hs]
    rfl

/-- A refusal on the first line of the second sheet is moved by what follows the last line feed of
the first one, and a refused text leaves no trace in a session. -/
theorem parse_append_and_build_refused :
    (∃ e, Sheet.parse "a\x7b\x7d\nb \x7by:1;\x7d c\x7bx\x7d".toList = .error e ∧
      e.diagnostic = ⟨['\x7d'], some 2, some 13, none⟩) ∧
    ∃ rules, Sheet.parse "a\x7bx:1\x7db\x7b\x7d".toList = .ok rules ∧
      (Session.initial.run [.parse "a\x7bx:1\x7d".toList, .parse "a\x7bx:1\x7d[\x7b".toList,
        .parse "b\x7b\x7d".toList, .build]).1.tree = Tree.ofRules rules := by
  obtain ⟨happend, hbuild⟩ := parse_append_and_build
  constructor
  · obtain ⟨-, hrefused⟩ := happend "a\x7b\x7d\nb \x7by:1;\x7d ".toList "c\x7bx\x7d".toList _ rfl
    exact hrefused _ rfl
  · obtain ⟨rules, hr, hs⟩ := hbuild
      ["a\x7bx:1\x7d".toList, "a\x7bx:1\x7d[\x7b".toList, "b\x7b\x7d".toList]
    exact ⟨rules, hr, congrArg Session.tree hs⟩

end StyleNest

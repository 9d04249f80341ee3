import StyleNest.Proofs.Sheet.Failure

/-!
Sheets one behind the other.

Between two rules a scan knows nothing but the rules it has read and its place. So a sheet is read
behind any other one as it is read alone: the rules of both are put together, and a report on the
second sheet is the report on it alone with its place moved.
-/

namespace StyleNest

namespace Text

/-! ### Places behind another text -/

lemma behindLast_append (p : Char → Bool) (s u : Text) :
    behindLast p (s ++ u) = if u.any p then behindLast p u else behindLast p s ++ u := by
  induction u using List.reverseRecOn with
  | nil => simp
  | append_singleton u c ih =>
    rw [← List.append_assoc, behindLast_snoc, behindLast_snoc, ih, List.any_append]
    cases hc : p c
    · cases hu : u.any p <;> simp [hc]
    · simp [hc]

/-- A place told from the beginning of a text that stands in front. Only the first line goes on
with the last line of that text. -/
def Position.behind (s : Text) (p : Position) : Position :=
  ⟨p.line + s.count '\n',
    if p.line = 1 then p.column + (behindLast (· == '\n') s).length else p.column⟩

lemma lineBehind_eq_one_iff (u : Text) : lineBehind u = 1 ↔ u.any (· == '\n') = false := by
  simp only [lineBehind, Nat.add_eq_left, List.count_eq_zero, List.any_eq_false, beq_iff_eq]
  exact ⟨fun h x hx e => h (e ▸ hx), fun h hm => h '\n' hm rfl⟩

lemma Position.after_start_append (s u : Text) :
    start.after (s ++ u) = (start.after u).behind s := by
  rw [after_start, after_start, behind, Position.mk.injEq]
  constructor
  · simp only [lineBehind, List.count_append]
    omega
  · simp only [columnBehind, behindLast_append, lineBehind_eq_one_iff]
    cases hu : u.any (· == '\n')
    · have hall : behindLast (· == '\n') u = u := by
        have h := behindLast_append (· == '\n') [] u
        simpa [hu] using h
      simp [hall]
      omega
    · simp

/-- A place moves on by a character in the same way behind another text. -/
lemma Position.next_behind (s u : Text) (c : Char) :
    ((start.after u).behind s).next c = ((start.after u).next c).behind s := by
  have h : ∀ t : Text, (start.after t).next c = start.after (t ++ [c]) := fun t => by
    rw [after_append, after_cons, after_nil]
  rw [← after_start_append, h, h, List.append_assoc, after_start_append]

end Text

open Text

/-- A report told from the beginning of a text that stands in front. -/
def Diagnostic.behind (s : Text) (d : Diagnostic) : Diagnostic :=
  { d with
    line := d.line.map (· + (s.count '\n' : ℤ))
    column :=
      if d.line = some 1 then d.column.map (· + ((behindLast (· == '\n') s).length : ℤ))
      else d.column }

namespace Sheet

open Selector

def Error.behind (s : Text) : Error → Error
  | .unexpected found place => .unexpected found (place.behind s)
  | .chain e => .chain e

lemma Error.diagnostic_behind (s : Text) (e : Error) :
    (e.behind s).diagnostic = e.diagnostic.behind s := by
  cases e with
  | chain e => rfl
  | unexpected found place =>
    by_cases h : place.line = 1
    · simp [behind, diagnostic, Diagnostic.behind, Position.behind, h]
    · have hz : (place.line : ℤ) ≠ 1 := by omega
      simp [behind, diagnostic, Diagnostic.behind, Position.behind, h, hz]

/-! ### The scan behind another sheet -/

/-- The state of a scan that has read a sheet before, the rules of which are `base`. -/
def State.behind (s : Text) (base : List Rule) (st : State) : State :=
  ⟨st.rules ++ base, st.phase, st.place.behind s⟩

variable {s u : Text} {m : State}

/-- One character does the same behind another sheet. -/
lemma step_behind (s : Text) (base : List Rule) (hm : m.place = Position.start.after u)
    (c : Char) :
    step (m.behind s base) c =
      ((step m c).map (State.behind s base)).mapError (Error.behind s) := by
  have hnext : (m.place.behind s).next c = (m.place.next c).behind s := by
    rw [hm, Position.next_behind]
  unfold step State.behind
  cases hmove : m.phase.move c with
  | enter phase => simp [hnext, Except.map, Except.mapError]
  | close rule => simp [hnext, Except.map, Except.mapError]
  | refuse => rfl
  | refuseChain e => rfl

lemma run_behind (s u : Text) (base : List Rule) :
    run (State.initial.behind s base) u =
      ((run .initial u).map (State.behind s base)).mapError (Error.behind s) := by
  induction u using List.reverseRecOn with
  | nil => rfl
  | append_singleton u c ih =>
    rw [run_append, run_append, ih]
    cases h : run .initial u with
    | error e => rfl
    | ok m =>
      have hstep := step_behind s base (place_of_run h) c
      change (step (m.behind s base) c).bind _ = (((step m c).bind _).map _).mapError _
      rw [hstep]
      cases step m c <;> rfl

lemma finish_behind (s : Text) (base : List Rule) (m : State) :
    finish (m.behind s base) =
      ((finish m).map (base.reverse ++ ·)).mapError (Error.behind s) := by
  unfold finish State.behind
  cases m.phase <;> simp [Except.map, Except.mapError, Error.behind]

/-- A scan that has read a whole sheet stands where it began, behind that sheet. -/
lemma run_of_parse {rs : List Rule} (h : parse s = .ok rs) :
    run .initial s = .ok (State.initial.behind s rs.reverse) := by
  have hrun : run .initial s = .ok ⟨rs.reverse ++ [], .outside, Position.start.after s⟩ :=
    yields_of_reads (reads_of_parse h) [] .start
  have hplace : Position.start.after s = Position.start.behind s := by
    simpa using Position.after_start_append s []
  rw [hrun, hplace, List.append_nil]
  rfl

/-- Behind a sheet, another text is read as it is read alone. -/
lemma parse_append {rs : List Rule} (h : parse s = .ok rs) (t : Text) :
    parse (s ++ t) = ((parse t).map (rs ++ ·)).mapError (Error.behind s) := by
  rw [parse, run_append_of_run (run_of_parse h), run_behind, parse]
  cases run .initial t with
  | error e => rfl
  | ok m =>
    have hfinish := finish_behind s rs.reverse m
    rw [List.reverse_reverse] at hfinish
    exact hfinish

end Sheet
end StyleNest

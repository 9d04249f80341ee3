import StyleNest.CommandLine.Run
import StyleNest.Proofs.CommandLine.Arguments

/-!
How a run ends in a directory.

A run reads all of its input before it writes anything. What it hands out is printed or becomes the
content of one file, which may be the input, and no other file is changed. Only a conversion is
handed out to a file.
-/

namespace StyleNest.CommandLine

open Text Sheet

/-! ### Files -/

namespace Directory

variable {files : Directory} {path : Text}

lemma lookup_file (name content : Text) (files : Directory) (n : Text) :
    List.lookup n ((name, content) :: files) =
      if n = name then some content else List.lookup n files := by
  by_cases h : n = name
  · rw [h, if_pos rfl, List.lookup_cons_self]
  · rw [List.lookup_cons, beq_eq_false_iff_ne.mpr h, if_neg h]

lemma lookup_put (files : Directory) (name content n : Text) :
    (files.put name content).lookup n = if n = name then some content else files.lookup n := by
  induction files with
  | nil => exact lookup_file name content [] n
  | cons file files ih =>
    obtain ⟨first, c⟩ := file
    rw [put, lookup_file first c]
    by_cases h : first = name
    · rw [if_pos h, h, lookup_file]
      split_ifs <;> rfl
    · rw [if_neg h, lookup_file, ih]
      by_cases hn : n = name
      · rw [if_pos hn, if_pos hn, if_neg fun hf => h (hf.symm.trans hn)]
      · rw [if_neg hn, if_neg hn]

/-- The directories on a path are the same whatever files there are. -/
lemma enter_of_enter {place place' : Place} {name : Text}
    (h : place.enter files name = .ok place') (files' : Directory) :
    place.enter files' name = .ok place' := by
  unfold Place.enter at h ⊢
  split_ifs at h ⊢ <;> exact h

lemma foldlM_enter_of_enter {names : List Text} {place place' : Place}
    (h : names.foldlM (Place.enter files) place = .ok place') (files' : Directory) :
    names.foldlM (Place.enter files') place = .ok place' := by
  induction names generalizing place with
  | nil => exact h
  | cons name names ih =>
    rw [List.foldlM_cons] at h ⊢
    cases hm : place.enter files name with
    | error e => rw [hm] at h; cases h
    | ok m =>
      rw [hm] at h
      rw [enter_of_enter hm files']
      exact ih h

/-- A path that leads to a file leads there whatever files there are. -/
lemma resolve_of_resolve {target : Target} (h : files.resolve path = .ok target)
    (files' : Directory) : files'.resolve path = .ok target := by
  unfold resolve at h ⊢
  by_cases hb : Path.maxPathBytes < Path.bytes path
  · rw [if_pos hb] at h
    cases h
  by_cases hp : path = []
  · rw [if_neg hb, if_pos hp] at h
    cases h
  rw [if_neg hb, if_neg hp] at h ⊢
  simp only at h ⊢
  generalize hplace : (Path.names path).dropLast.foldlM (Place.enter files) _ = place at h
  cases place with
  | error e => cases h
  | ok place =>
    rw [foldlM_enter_of_enter hplace files']
    exact h

end Directory

/-! ### Texts that are handed out -/

/-- A path that is given for the output leads to a file, whether it is there or not. Outside of the
directory every last name is taken for that of a file. -/
def Channel.IsWritable (files : Directory) : Channel → Prop
  | .standard => True
  | .file path => ∃ target, files.resolve path = .ok target

/-- How a run ends that hands a text out through a channel: all of it is printed, or it becomes
the content of a file. No other file is changed. Nothing is known of a file outside. -/
inductive Delivers (text : Text) (files : Directory) : Channel → Outcome → Prop where
  | printed (err : Text) : Delivers text files .standard ⟨0, text, err, files⟩
  | written {path name : Text} {files' : Directory} (err : Text) :
      files.resolve path = .ok (.inside name) → files'.read? path = some text →
      (∀ n, n ≠ name → files'.lookup n = files.lookup n) →
      Delivers text files (.file path) ⟨0, [], err, files'⟩
  | outside {path : Text} (err : Text) :
      files.resolve path = .ok .outside → Delivers text files (.file path) ⟨0, [], err, files⟩

variable {words : List Text} {stdin source : Text} {files : Directory} {verbose : Bool}
  {job : Job} {input : Channel}

/-- What comes of a report in a directory. -/
def delivery (stdin : Text) (verbose : Bool) (r : Report) (files : Directory) : Outcome :=
  outcome ((Host.inDirectory stdin).deliver verbose r) files

section

variable {r : Report} {path : Text} (stdin : Text) (verbose : Bool)

lemma delivery_standard (ho : r.output = .standard) (files : Directory) :
    delivery stdin verbose r files = ⟨0, r.text, unlines (r.log verbose), files⟩ := by
  simp only [delivery, Host.deliver, ho, outcome_pure]

lemma delivery_of_write_ok {files' : Directory} (ho : r.output = .file path)
    (h : files.write path r.text = .ok files') :
    delivery stdin verbose r files = ⟨0, [], unlines (r.log verbose), files'⟩ := by
  simp only [delivery, Host.deliver, ho, outcome_write_of_ok h, outcome_pure]

lemma delivery_of_write_error {e : OpenError} (ho : r.output = .file path)
    (h : files.write path r.text = .error e) :
    delivery stdin verbose r files =
      ⟨1, [], unlines (r.log verbose ++ [openErrorLine path e]), files⟩ := by
  simp only [delivery, Host.deliver, ho, outcome_write_of_error h, outcome_pure]

end

lemma delivers_of_isWritable {r : Report} (h : r.output.IsWritable files) :
    Delivers r.text files r.output (delivery stdin verbose r files) := by
  cases ho : r.output with
  | standard =>
    rw [delivery_standard stdin verbose ho]
    exact .printed _
  | file path =>
    rw [ho] at h
    obtain ⟨target, ht⟩ := h
    cases target with
    | inside name =>
      have hwrite : files.write path r.text = .ok (files.put name r.text) := by
        rw [Directory.write, ht]
        rfl
      have hread : Directory.read? (files.put name r.text) path = some r.text := by
        rw [Directory.read?, Directory.resolve_of_resolve ht]
        simp only [Directory.lookup_put, if_true]
      rw [delivery_of_write_ok stdin verbose ho hwrite]
      exact .written _ ht hread fun n hn => by rw [Directory.lookup_put, if_neg hn]
    | outside =>
      have hwrite : files.write path r.text = .ok files := by
        rw [Directory.write, ht]
        rfl
      rw [delivery_of_write_ok stdin verbose ho hwrite]
      exact .outside _ ht

/-! ### Runs -/

lemma run_of_read_none (h : Invocation.read? words = none) :
    run words stdin files = ⟨2, [], [], files⟩ := by
  simp only [run, Host.run, h, outcome_pure, Ending.misuse]

lemma run_of_version (h : Invocation.read? words = some .version) :
    run words stdin files = ⟨0, unlines [versionLine], [], files⟩ := by
  simp only [run, Host.run, h, outcome_pure]

section

variable (hw : Invocation.read? words = some (.job verbose job input))
include hw

lemma run_of_input_none (hi : input? stdin files input = none) :
    run words stdin files = ⟨2, [], [], files⟩ := by
  simp only [run, Host.run, hw, outcome_read, hi, outcome_pure, Ending.misuse]

variable (hi : input? stdin files input = some source)
include hi

lemma run_of_report_error {e : Error} (h : job.report (unifyNewlines source) = .error e) :
    run words stdin files = ⟨1, [], unlines [parseErrorLine e], files⟩ := by
  simp only [run, Host.run, hw, outcome_read, hi, Host.work, h, outcome_pure]

lemma run_of_report_ok {r : Report} (h : job.report (unifyNewlines source) = .ok r) :
    run words stdin files = delivery stdin verbose r files := by
  simp only [run, Host.run, hw, outcome_read, hi, Host.work, h, delivery]

end

lemma report_error {text : Text} {e : Error} (h : Sheet.parse text = .error e) (job : Job) :
    job.report text = .error e := by
  rw [Job.report, h]
  rfl

lemma output_of_report {text : Text} {r : Report} (h : job.report text = .ok r)
    (hj : job = .rules ∨ job = .inspect) : r.output = .standard := by
  rw [Job.report] at h
  cases hp : Sheet.parse text with
  | error e =>
    rw [hp] at h
    cases h
  | ok rules =>
    rw [hp] at h
    rcases hj with rfl | rfl <;> cases h <;> rfl

/-- A job that is no conversion changes no file, whatever comes of it. -/
lemma files_run (hw : Invocation.read? words = some (.job verbose job input))
    (hj : job = .rules ∨ job = .inspect) : (run words stdin files).files = files := by
  cases hi : input? stdin files input with
  | none => rw [run_of_input_none hw hi]
  | some source =>
    cases hr : job.report (unifyNewlines source) with
    | error e => rw [run_of_report_error hw hi hr]
    | ok r => rw [run_of_report_ok hw hi hr, delivery_standard _ _ (output_of_report hr hj)]

lemma exists_delivery_eq (stdin : Text) (verbose verbose' : Bool) (r : Report)
    (files : Directory) :
    ∃ err,
      delivery stdin verbose' r files = { delivery stdin verbose r files with err := err } := by
  cases ho : r.output with
  | standard =>
    rw [delivery_standard stdin verbose ho, delivery_standard stdin verbose' ho]
    exact ⟨_, rfl⟩
  | file path =>
    cases h : files.write path r.text with
    | ok files' =>
      rw [delivery_of_write_ok stdin verbose ho h, delivery_of_write_ok stdin verbose' ho h]
      exact ⟨_, rfl⟩
    | error e =>
      rw [delivery_of_write_error stdin verbose ho h, delivery_of_write_error stdin verbose' ho h]
      exact ⟨_, rfl⟩

/-- A log goes to the error stream, and nothing else changes with it. -/
lemma exists_run_eq_of_verbose {word : Text} (hv : word = "-v".toList ∨ word = "--verbose".toList)
    (words : List Text) (stdin : Text) (files : Directory) :
    ∃ err, run (word :: words) stdin files = { run words stdin files with err := err } := by
  have hverbose := read?_verbose hv words
  cases hw : Invocation.read? words with
  | none =>
    rw [hw] at hverbose
    exact ⟨_, by rw [run_of_read_none hw, run_of_read_none hverbose]⟩
  | some invocation =>
    rw [hw] at hverbose
    cases invocation with
    | version => exact ⟨_, by rw [run_of_version hw, run_of_version hverbose]⟩
    | job verbose job input =>
      cases hi : input? stdin files input with
      | none => exact ⟨_, by rw [run_of_input_none hw hi, run_of_input_none hverbose hi]⟩
      | some source =>
        cases hr : job.report (unifyNewlines source) with
        | error e =>
          exact ⟨_, by rw [run_of_report_error hw hi hr, run_of_report_error hverbose hi hr]⟩
        | ok r =>
          obtain ⟨err, he⟩ := exists_delivery_eq stdin verbose true r files
          exact ⟨err, by rw [run_of_report_ok hw hi hr, run_of_report_ok hverbose hi hr, he]⟩

end StyleNest.CommandLine

import StyleNest.Json.Rules
import StyleNest.Proofs.Json.Strings

/-!
JSON read back.

A value is read where it is due and leaves the reader behind it, whatever containers are open. So
the items of a container are read one behind the other, each by the same fact about itself, and the
layout between them is blanks. Rules are found again in their values because nothing of a rule is
left out there.
-/

namespace StyleNest

namespace Json

open Text

/-! ### Values and the values in them -/

/-- What holds of a container when it holds of all that it contains holds of every value. -/
@[elab_as_elim]
lemma induction {motive : Json → Prop} (str : ∀ s, motive (.str s))
    (arr : ∀ items, (∀ j ∈ items, motive j) → motive (.arr items))
    (obj : ∀ fields, (∀ f ∈ fields, motive f.2) → motive (.obj fields)) (j : Json) :
    motive j := by
  refine @Json.rec motive (fun items => ∀ j ∈ items, motive j)
    (fun fields => ∀ f ∈ fields, motive f.2) (fun f => motive f.2) str arr obj ?_ ?_ ?_ ?_ ?_ j
  · simp
  · exact fun j items hj hitems => List.forall_mem_cons.mpr ⟨hj, hitems⟩
  · simp
  · exact fun f fields hf hfields => List.forall_mem_cons.mpr ⟨hf, hfields⟩
  · exact fun _ _ hj => hj

lemma writeItems_eq_map (depth : Nat) (items : List Json) :
    writeItems depth items = items.map (write depth) := by
  induction items with
  | nil => rfl
  | cons j items ih => rw [writeItems, ih, List.map_cons]

/-- A key with its value. -/
def writeField (depth : Nat) (f : Text × Json) : Text :=
  string f.1 ++ ": ".toList ++ f.2.write depth

lemma writeFields_eq_map (depth : Nat) (fields : List (Text × Json)) :
    writeFields depth fields = fields.map (writeField depth) := by
  induction fields with
  | nil => rfl
  | cons f fields ih => rw [writeFields, ih, List.map_cons, writeField]

/-! ### The characters of a text -/

lemma isAsciiLines_lineAt (depth : Nat) : IsAsciiLines (lineAt depth) := by
  have hlevel : IsAsciiLines (times depth "    ".toList) := by
    intro c hc
    obtain ⟨s, hs, hc⟩ := List.mem_flatten.mp hc
    rw [List.eq_of_mem_replicate hs] at hc
    have hall : IsAsciiLines "    ".toList := by decide
    exact hall c hc
  exact .cons (by decide) hlevel

lemma isAsciiLines_enclose {left right : Char} {depth : Nat} {parts : List Text}
    (hl : IsAsciiLines [left]) (hr : IsAsciiLines [right]) (h : ∀ p ∈ parts, IsAsciiLines p) :
    IsAsciiLines (enclose left right depth parts) := by
  cases parts with
  | nil => exact .cons hl hr
  | cons part parts =>
    rw [List.forall_mem_cons] at h
    have hline : ∀ d, IsAsciiLines (lineAt d) := isAsciiLines_lineAt
    have hrest : IsAsciiLines (parts.flatMap fun p => ',' :: lineAt (depth + 1) ++ p) :=
      .flatMap fun p hp => .append (.cons (by decide) (hline _)) (h.2 p hp)
    have hfirst : IsAsciiLines (left :: lineAt (depth + 1) ++ part) :=
      .append (.cons hl (hline _)) h.1
    exact ((hfirst.append hrest).append (hline depth)).append hr

lemma isAsciiLines_write (j : Json) (depth : Nat) : IsAsciiLines (j.write depth) := by
  induction j using Json.induction generalizing depth with
  | str s => exact isAsciiLines_string s
  | arr items ih =>
    rw [write, writeItems_eq_map]
    refine isAsciiLines_enclose (by decide) (by decide) fun p hp => ?_
    obtain ⟨j, hj, rfl⟩ := List.mem_map.mp hp
    exact ih j hj (depth + 1)
  | obj fields ih =>
    rw [write, writeFields_eq_map]
    refine isAsciiLines_enclose (by decide) (by decide) fun p hp => ?_
    obtain ⟨f, hf, rfl⟩ := List.mem_map.mp hp
    have hcolon : IsAsciiLines ": ".toList := by decide
    exact ((isAsciiLines_string f.1).append hcolon).append (ih f hf (depth + 1))

/-! ### Reading a value -/

namespace Reader

variable {st st' : State} {frames : List Frame} {s t w : Text}

lemma run?_cons_of_step? {c : Char} (h : step? st c = some st') :
    run? st (c :: t) = run? st' t := by
  rw [run?_cons, h]
  rfl

lemma run?_append_of_run? (h : run? st s = some st') : run? st (s ++ t) = run? st' t := by
  rw [run?_append, h]
  rfl

/-- Blanks are passed over wherever one is. -/
lemma run?_spaces (h : ∀ c, isSpace c = true → step? st c = some st)
    (hw : ∀ c ∈ w, isSpace c = true) : run? st w = some st := by
  induction w with
  | nil => rfl
  | cons c w ih =>
    rw [List.forall_mem_cons] at hw
    rw [run?_cons_of_step? (h c hw.1)]
    exact ih hw.2

lemma step?_value_of_isSpace (first : Bool) {c : Char} (hc : isSpace c = true) :
    step? ⟨frames, .value first⟩ c = some ⟨frames, .value first⟩ := by
  simp [step?, hc]

lemma step?_key_of_isSpace (first : Bool) (done : List (Text × Json)) {c : Char}
    (hc : isSpace c = true) :
    step? ⟨frames, .key first done⟩ c = some ⟨frames, .key first done⟩ := by
  simp [step?, hc]

lemma step?_after_of_isSpace (v : Json) {c : Char} (hc : isSpace c = true) :
    step? ⟨frames, .after v⟩ c = some ⟨frames, .after v⟩ := by
  rcases frames with _ | ⟨_ | _, frames⟩ <;> simp [step?, hc]

lemma isSpace_of_mem_lineAt {depth : Nat} : ∀ c ∈ lineAt depth, isSpace c = true := by
  intro c hc
  rcases List.mem_cons.mp hc with rfl | hc
  · rfl
  · obtain ⟨s, hs, hc⟩ := List.mem_flatten.mp hc
    rw [List.eq_of_mem_replicate hs] at hc
    have hall : "    ".toList.all isSpace = true := rfl
    exact List.all_eq_true.mp hall c hc

lemma run?_raw {fields : Option (List (Text × Json))} {raw : Text} (h : IsRaw s) :
    run? ⟨frames, .string fields false raw⟩ s =
      some ⟨frames, .string fields false (s.reverse ++ raw)⟩ := by
  induction h generalizing raw with
  | nil => rfl
  | @plain c s hm hb _ ih =>
    have hstep : step? ⟨frames, .string fields false raw⟩ c =
        some ⟨frames, .string fields false (c :: raw)⟩ := by
      simp [step?, hm, hb]
    rw [run?_cons_of_step? hstep, ih]
    simp
  | @escape c s _ ih =>
    have hopen : step? ⟨frames, .string fields false raw⟩ backslash =
        some ⟨frames, .string fields true (backslash :: raw)⟩ := rfl
    have hclose : step? ⟨frames, .string fields true (backslash :: raw)⟩ c =
        some ⟨frames, .string fields false (c :: backslash :: raw)⟩ := rfl
    rw [run?_cons_of_step? hopen, run?_cons_of_step? hclose, ih]
    simp

/-- A string is read to its closing mark. -/
lemma run?_string (fields : Option (List (Text × Json))) (s : Text) :
    run? ⟨frames, .string fields false []⟩ (s.flatMap escaped ++ [doubleMark]) =
      endString? frames fields (s.flatMap escaped).reverse := by
  have hraw : IsRaw (s.flatMap escaped) := .flatMap fun c _ => isRaw_escaped c
  rw [run?_append_of_run? (run?_raw hraw), List.append_nil]
  change (endString? frames fields _).bind (run? · []) = _
  cases endString? frames fields (s.flatMap escaped).reverse <;> rfl

lemma run?_value_string (first : Bool) (s : Text) :
    run? ⟨frames, .value first⟩ (string s) = some ⟨frames, .after (.str s)⟩ := by
  have hopen : step? ⟨frames, .value first⟩ doubleMark = some ⟨frames, .string none false []⟩ :=
    rfl
  rw [string, List.cons_append, run?_cons_of_step? hopen, run?_string, endString?,
    List.reverse_reverse, unescape?_escapes]
  rfl

lemma run?_key_string (first : Bool) (done : List (Text × Json)) (s : Text) :
    run? ⟨frames, .key first done⟩ (string s) = some ⟨frames, .colon done s⟩ := by
  have hopen : step? ⟨frames, .key first done⟩ doubleMark =
      some ⟨frames, .string (some done) false []⟩ := rfl
  rw [string, List.cons_append, run?_cons_of_step? hopen, run?_string, endString?,
    List.reverse_reverse, unescape?_escapes]
  rfl

/-- The text of a value is read as that value, wherever a value is due. -/
def ReadsBack (j : Json) : Prop :=
  ∀ frames first depth, run? ⟨frames, .value first⟩ (j.write depth) = some ⟨frames, .after j⟩

/-- The items behind the first one of an array, and its end. -/
lemma run?_items {items : List Json} (h : ∀ j ∈ items, ReadsBack j)
    (hw : ∀ c ∈ w, isSpace c = true) (done : List Json) (v : Json) (depth : Nat) :
    run? ⟨.items done :: frames, .after v⟩
        ((items.map (write depth)).flatMap (fun p => ',' :: lineAt depth ++ p) ++ w ++ [']']) =
      some ⟨frames, .after (.arr (done.reverse ++ v :: items))⟩ := by
  induction items generalizing done v with
  | nil =>
    have hspaces : run? ⟨.items done :: frames, .after v⟩ w = _ :=
      run?_spaces (fun c => step?_after_of_isSpace v) hw
    rw [List.map_nil, List.flatMap_nil, List.nil_append, run?_append_of_run? hspaces]
    simp [run?_cons, step?, isSpace]
  | cons j items ih =>
    rw [List.forall_mem_cons] at h
    have hcomma : step? ⟨.items done :: frames, .after v⟩ ',' =
        some ⟨.items (v :: done) :: frames, .value false⟩ := rfl
    have hline : run? ⟨.items (v :: done) :: frames, .value false⟩ (lineAt depth) = _ :=
      run?_spaces (fun c => step?_value_of_isSpace false) isSpace_of_mem_lineAt
    have hrest := ih h.2 (v :: done) j
    simp only [List.cons_append, List.append_assoc] at hrest
    simp only [List.map_cons, List.flatMap_cons, List.cons_append, List.append_assoc]
    rw [run?_cons_of_step? hcomma, run?_append_of_run? hline, run?_append_of_run? (h.1 _ _ _),
      hrest]
    simp

lemma run?_field {f : Text × Json} (h : ReadsBack f.2) (first : Bool)
    (done : List (Text × Json)) (depth : Nat) :
    run? ⟨frames, .key first done⟩ (writeField depth f) =
      some ⟨.fields done f.1 :: frames, .after f.2⟩ := by
  have hcolon : run? ⟨frames, .colon done f.1⟩ ": ".toList =
      some ⟨.fields done f.1 :: frames, .value false⟩ := rfl
  rw [writeField, List.append_assoc, run?_append_of_run? (run?_key_string first done f.1),
    run?_append_of_run? hcolon]
  exact h _ _ _

/-- The fields behind the first one of an object, and its end. -/
lemma run?_fields {fields : List (Text × Json)} (h : ∀ f ∈ fields, ReadsBack f.2)
    (hw : ∀ c ∈ w, isSpace c = true) (done : List (Text × Json)) (key : Text) (v : Json)
    (depth : Nat) :
    run? ⟨.fields done key :: frames, .after v⟩
        ((fields.map (writeField depth)).flatMap (fun p => ',' :: lineAt depth ++ p) ++ w ++
          ['}']) =
      some ⟨frames, .after (.obj (done.reverse ++ (key, v) :: fields))⟩ := by
  induction fields generalizing done key v with
  | nil =>
    have hspaces : run? ⟨.fields done key :: frames, .after v⟩ w = _ :=
      run?_spaces (fun c => step?_after_of_isSpace v) hw
    rw [List.map_nil, List.flatMap_nil, List.nil_append, run?_append_of_run? hspaces]
    simp [run?_cons, step?, isSpace]
  | cons f fields ih =>
    rw [List.forall_mem_cons] at h
    have hcomma : step? ⟨.fields done key :: frames, .after v⟩ ',' =
        some ⟨frames, .key false ((key, v) :: done)⟩ := rfl
    have hline : run? ⟨frames, .key false ((key, v) :: done)⟩ (lineAt depth) = _ :=
      run?_spaces (fun c => step?_key_of_isSpace false _) isSpace_of_mem_lineAt
    have hrest := ih h.2 ((key, v) :: done) f.1 f.2
    simp only [List.cons_append, List.append_assoc] at hrest
    simp only [List.map_cons, List.flatMap_cons, List.cons_append, List.append_assoc]
    rw [run?_cons_of_step? hcomma, run?_append_of_run? hline,
      run?_append_of_run? (run?_field h.1 _ _ _), hrest]
    simp

lemma readsBack_arr {items : List Json} (h : ∀ j ∈ items, ReadsBack j) :
    ReadsBack (.arr items) := by
  intro frames first depth
  have hopen : step? ⟨frames, .value first⟩ '[' = some ⟨.items [] :: frames, .value true⟩ := rfl
  rw [write, writeItems_eq_map]
  cases items with
  | nil =>
    rw [List.map_nil, enclose, run?_cons_of_step? hopen]
    rfl
  | cons j items =>
    rw [List.forall_mem_cons] at h
    have hline : run? ⟨.items [] :: frames, .value true⟩ (lineAt (depth + 1)) = _ :=
      run?_spaces (fun c => step?_value_of_isSpace true) isSpace_of_mem_lineAt
    have hend : ∀ c ∈ lineAt depth, isSpace c = true := isSpace_of_mem_lineAt
    have hrest := @run?_items frames _ items h.2 hend [] j (depth + 1)
    simp only [List.cons_append, List.append_assoc] at hrest
    simp only [List.map_cons, enclose, List.cons_append, List.append_assoc]
    rw [run?_cons_of_step? hopen, run?_append_of_run? hline, run?_append_of_run? (h.1 _ _ _),
      hrest]
    rfl

lemma readsBack_obj {fields : List (Text × Json)} (h : ∀ f ∈ fields, ReadsBack f.2) :
    ReadsBack (.obj fields) := by
  intro frames first depth
  have hopen : step? ⟨frames, .value first⟩ '{' = some ⟨frames, .key true []⟩ := rfl
  rw [write, writeFields_eq_map]
  cases fields with
  | nil =>
    rw [List.map_nil, enclose, run?_cons_of_step? hopen]
    rfl
  | cons f fields =>
    rw [List.forall_mem_cons] at h
    have hline : run? ⟨frames, .key true []⟩ (lineAt (depth + 1)) = _ :=
      run?_spaces (fun c => step?_key_of_isSpace true _) isSpace_of_mem_lineAt
    have hend : ∀ c ∈ lineAt depth, isSpace c = true := isSpace_of_mem_lineAt
    have hrest := @run?_fields frames _ fields h.2 hend [] f.1 f.2 (depth + 1)
    simp only [List.cons_append, List.append_assoc] at hrest
    simp only [List.map_cons, enclose, List.cons_append, List.append_assoc]
    rw [run?_cons_of_step? hopen, run?_append_of_run? hline,
      run?_append_of_run? (run?_field h.1 _ _ _), hrest]
    rfl

lemma readsBack (j : Json) : ReadsBack j := by
  induction j using Json.induction with
  | str s => exact fun frames first _ => run?_value_string first s
  | arr items ih => exact readsBack_arr ih
  | obj fields ih => exact readsBack_obj ih

end Reader

/-- A value is read back from its text, whatever blanks stand behind it. -/
lemma read?_write (j : Json) (depth : Nat) {w : Text}
    (hw : ∀ c ∈ w, Reader.isSpace c = true) : read? (j.write depth ++ w) = some j := by
  have hrun : Reader.run? .initial (j.write depth ++ w) = some ⟨[], .after j⟩ := by
    rw [Reader.State.initial, Reader.run?_append_of_run? (Reader.readsBack j [] false depth)]
    exact Reader.run?_spaces (fun c => Reader.step?_after_of_isSpace j) hw
  rw [read?, hrun]

/-! ### Rules -/

open Selector Sheet

/-- What is found again in each item is found again in a list of them. -/
lemma mapM_map_eq_some {α : Type} {f : α → Json} {g : Json → Option α}
    (h : ∀ x, g (f x) = some x) (xs : List α) : (xs.map f).mapM g = some xs := by
  have hcomp : g ∘ f = pure := funext h
  rw [List.mapM_map, hcomp, List.mapM_pure]
  simp

lemma asComponent?_toJson (c : Component) : asComponent? c.toJson = some c := by
  obtain ⟨text, kind, hne⟩ := c
  have hparts : Component.ofParts kind.code text = .ok ⟨text, kind, hne⟩ := by
    rw [Component.ofParts, Kind.ofCode?_code]
    exact dif_neg hne
  change (Component.ofParts kind.code text).toOption = _
  rw [hparts]
  rfl

lemma asChain?_toJson (chain : Chain) : asChain? chain.toJson = some chain :=
  mapM_map_eq_some asComponent?_toJson chain

lemma asDeclaration?_toJson (d : Declaration) : asDeclaration? d.toJson = some d := rfl

lemma asRule?_toJson (r : Rule) : asRule? r.toJson = some r := by
  have hchains := mapM_map_eq_some asChain?_toJson r.selectors
  have hdeclarations := mapM_map_eq_some asDeclaration?_toJson r.declarations
  change ((r.selectors.map Chain.toJson).mapM asChain?).bind (fun cs =>
    ((r.declarations.map Declaration.toJson).mapM asDeclaration?).bind fun ds =>
      some (Rule.mk cs ds)) = _
  rw [hchains, hdeclarations]
  rfl

lemma asRules?_ofRules (rules : List Rule) : asRules? (ofRules rules) = some rules :=
  mapM_map_eq_some asRule?_toJson rules

end Json
end StyleNest

import StyleNest.Proofs.Sheet.Alphabet
import StyleNest.Scss.Reader

/-!
Reading the lines of a tree.

The lines of a block take the reader into the block, through its declarations and the blocks in
it, and out again, so that a forest adds its blocks to what the innermost open block has gathered.
This needs of the texts only that a header cannot be taken for anything else.
-/

namespace StyleNest.Scss

open Text Sheet

namespace Reader

/-! ### Headers -/

/-- A header that is not taken for a blank, a brace or a declaration. -/
structure IsHeader (s : Text) : Prop where
  head : ∃ c rest, s = c :: rest ∧ isSpace c = false ∧ c ≠ '}' ∧
    (isPropertyChar c = true → ':' ∉ rest)
  brace : '{' ∉ s

variable {done : List Block} {frames : List Frame}

lemma run?_cons_of_step? {st st' : State} {c : Char} {s : Text} (h : step? st c = some st') :
    run? st (c :: s) = run? st' s := by
  rw [run?_cons, h]
  rfl

lemma run?_append_of_run? {st st' : State} {s t : Text} (h : run? st s = some st') :
    run? st (s ++ t) = run? st' t := by
  rw [run?_append, h]
  rfl

/-- The state behind the brace of a header. -/
def opened (done : List Block) (frames : List Frame) (s : Text) : State :=
  ⟨done, ⟨⟨resolve (frames.head?.map fun f => f.block.selector) s, []⟩, []⟩ :: frames, .items⟩

lemma run?_header {s text : Text} (hs : '{' ∉ s) :
    run? ⟨done, frames, .header text⟩ (s ++ [' ', '{']) =
      some (opened done frames (text.reverse ++ s)) := by
  induction s generalizing text with
  | nil =>
    rw [List.append_nil]
    rfl
  | cons c s ih =>
    rw [List.mem_cons, not_or] at hs
    have h : step? ⟨done, frames, .header text⟩ c = some ⟨done, frames, .header (c :: text)⟩ := by
      simp [step?, headerStep, Ne.symm hs.1]
    rw [List.cons_append, run?_cons_of_step? h, ih hs.2]
    simp

/-- A word that no colon follows turns out to begin a header. -/
lemma run?_word {s text : Text} (hc : ':' ∉ s) (hs : '{' ∉ s) :
    run? ⟨done, frames, .word text⟩ (s ++ [' ', '{']) =
      some (opened done frames (text.reverse ++ s)) := by
  induction s generalizing text with
  | nil =>
    rw [List.append_nil]
    rfl
  | cons c s ih =>
    rw [List.mem_cons, not_or] at hs hc
    by_cases hp : isPropertyChar c = true
    · have h : step? ⟨done, frames, .word text⟩ c = some ⟨done, frames, .word (c :: text)⟩ := by
        simp [step?, hp]
      rw [List.cons_append, run?_cons_of_step? h, ih hc.2 hs.2]
      simp
    · have h : step? ⟨done, frames, .word text⟩ c =
          some ⟨done, frames, .header (c :: text)⟩ := by
        simp [step?, headerStep, hp, Ne.symm hc.1, Ne.symm hs.1]
      rw [List.cons_append, run?_cons_of_step? h, run?_header hs.2]
      simp

lemma run?_of_isHeader {s : Text} (hs : IsHeader s) :
    run? ⟨done, frames, .items⟩ (s ++ [' ', '{']) = some (opened done frames s) := by
  obtain ⟨⟨c, rest, rfl, hn, hb, hc⟩, hbrace⟩ := hs
  rw [List.mem_cons, not_or] at hbrace
  rw [List.cons_append]
  by_cases hp : isPropertyChar c = true ∧ frames ≠ []
  · have h : step? ⟨done, frames, .items⟩ c = some ⟨done, frames, .word [c]⟩ := by
      simp [step?, hn, hb, hp]
    rw [run?_cons_of_step? h, run?_word (hc hp.1) hbrace.2]
    rfl
  · have h : step? ⟨done, frames, .items⟩ c = some ⟨done, frames, .header [c]⟩ := by
      simp [step?, headerStep, hn, hb, if_neg hp, Ne.symm hbrace.1]
    rw [run?_cons_of_step? h, run?_header hbrace.2]
    rfl

/-! ### Blanks and declarations -/

lemma run?_spaces {s : Text} (hs : IsSpaces s) :
    run? ⟨done, frames, .items⟩ s = some ⟨done, frames, .items⟩ := by
  induction s with
  | nil => rfl
  | cons c s ih =>
    have h : step? ⟨done, frames, .items⟩ c = some ⟨done, frames, .items⟩ := by
      simp [step?, hs c (by simp)]
    rw [run?_cons_of_step? h, ih fun x hx => hs x (by simp [hx])]

lemma run?_name {s text : Text} (hs : ∀ c ∈ s, isPropertyChar c = true) :
    run? ⟨done, frames, .word text⟩ (s ++ [':']) =
      some ⟨done, frames, .colon (text.reverse ++ s)⟩ := by
  induction s generalizing text with
  | nil =>
    rw [List.append_nil]
    rfl
  | cons c s ih =>
    have h : step? ⟨done, frames, .word text⟩ c = some ⟨done, frames, .word (c :: text)⟩ := by
      simp [step?, hs c (by simp)]
    rw [List.cons_append, run?_cons_of_step? h, ih fun x hx => hs x (by simp [hx])]
    simp

lemma run?_value {name s text : Text} (hs : ';' ∉ s) :
    run? ⟨done, frames, .value name text⟩ s =
      some ⟨done, frames, .value name (s.reverse ++ text)⟩ := by
  induction s generalizing text with
  | nil => rfl
  | cons c s ih =>
    rw [List.mem_cons, not_or] at hs
    have h : step? ⟨done, frames, .value name text⟩ c =
        some ⟨done, frames, .value name (c :: text)⟩ := by
      simp [step?, Ne.symm hs.1]
    rw [run?_cons_of_step? h, ih hs.2]
    simp

/-- A declaration that the reader takes for itself. -/
structure IsReadable (d : Declaration) : Prop where
  name : IsPropertyName d.name
  value : ';' ∉ d.value

/-- The innermost open block with more declarations. -/
def Frame.declare (f : Frame) (ds : List Declaration) : Frame :=
  { f with block := { f.block with declarations := f.block.declarations ++ ds } }

lemma run?_written {f : Frame} {d : Declaration} (hd : IsReadable d) :
    run? ⟨done, f :: frames, .items⟩ d.written =
      some ⟨done, f.declare [d] :: frames, .items⟩ := by
  obtain ⟨name, value⟩ := d
  obtain ⟨⟨hne, hn⟩, hv⟩ := hd
  obtain ⟨c, rest, rfl⟩ := List.exists_cons_of_ne_nil hne
  have hc : isPropertyChar c = true := hn c (by simp)
  have hspace : isSpace c = false := by
    by_contra h
    rw [isPropertyChar_eq_false_of_isSpace (by simpa using h)] at hc
    cases hc
  have hbrace : c ≠ '}' := by
    rintro rfl
    cases hc
  have h : step? ⟨done, f :: frames, .items⟩ c = some ⟨done, f :: frames, .word [c]⟩ := by
    simp [step?, hspace, hbrace, hc]
  have e : Declaration.written ⟨c :: rest, value⟩ =
      c :: ((rest ++ [':']) ++ ([' '] ++ (value ++ [';']))) := by
    simp [Declaration.written]
  have hblank : run? ⟨done, f :: frames, .colon (c :: rest)⟩ [' '] =
      some ⟨done, f :: frames, .value (c :: rest) []⟩ := rfl
  rw [e, run?_cons_of_step? h, run?_append_of_run? (run?_name fun x hx => hn x (by simp [hx])),
    List.reverse_singleton, List.singleton_append, run?_append_of_run? hblank,
    run?_append_of_run? (run?_value hv), List.append_nil]
  simp [run?_cons, step?, declare?, Frame.declare]

/-! ### Blocks -/

/-- Closed blocks belong to the innermost open block, or to the text itself. -/
def State.deliver (st : State) (bs : List Block) : State :=
  match st.frames with
  | [] => { st with done := st.done ++ bs }
  | f :: frames => { st with frames := { f with inner := f.inner ++ bs } :: frames }

/-- The selector that the headers read next are resolved against. -/
def State.around (st : State) : Option Text := st.frames.head?.map fun f => f.block.selector

@[simp] lemma deliver_nil (st : State) : st.deliver [] = st := by
  obtain ⟨done, _ | ⟨f, frames⟩, phase⟩ := st <;> simp [State.deliver]

lemma deliver_append (st : State) (bs bs' : List Block) :
    st.deliver (bs ++ bs') = (st.deliver bs).deliver bs' := by
  obtain ⟨done, _ | ⟨f, frames⟩, phase⟩ := st <;> simp [State.deliver]

@[simp] lemma phase_deliver (st : State) (bs : List Block) :
    (st.deliver bs).phase = st.phase := by
  obtain ⟨done, _ | ⟨f, frames⟩, phase⟩ := st <;> rfl

@[simp] lemma around_deliver (st : State) (bs : List Block) :
    (st.deliver bs).around = st.around := by
  obtain ⟨done, _ | ⟨f, frames⟩, phase⟩ := st <;> rfl

@[simp] lemma length_frames_deliver (st : State) (bs : List Block) :
    (st.deliver bs).frames.length = st.frames.length := by
  obtain ⟨done, _ | ⟨f, frames⟩, phase⟩ := st <;> rfl

lemma run?_close (f : Frame) :
    run? ⟨done, f :: frames, .items⟩ ['}'] =
      some ((⟨done, frames, .items⟩ : State).deliver (f.block :: f.inner)) := by
  cases frames <;> rfl

end Reader

/-! ### Lines -/

open Reader

/-- The text of an edge whose header is read back. -/
structure IsLegible (text : Text) : Prop where
  header : IsHeader (trimLeft text)
  brace : '{' ∉ text
  ampersand : '&' ∉ text

/-- A node whose block is read back. -/
structure Legible (e : Tree.Entry) : Prop where
  text : IsLegible e.text
  declarations : ∀ d ∈ e.node.declarations, IsReadable d

lemma isHeader_header {text : Text} (ht : IsLegible text) (depth : Nat) :
    IsHeader (header depth text) := by
  unfold header
  split
  · refine ⟨⟨'&', text, rfl, by decide, by decide, by simp [isPropertyChar]⟩, ?_⟩
    simpa using ht.brace
  · exact ht.header

/-- A header gives the selector of its node back. -/
lemma resolve_header {text : Text} {around : Option Text} {depth : Nat} (ht : IsLegible text)
    (hd : around = none ↔ depth = 0) :
    resolve around (header depth text) = selectorBelow around text := by
  cases around with
  | none =>
    obtain rfl := hd.mp rfl
    simp [header, resolve, selectorBelow]
  | some s =>
    have hpos : 0 < depth := Nat.pos_of_ne_zero fun h => by simpa using hd.mpr h
    by_cases h : trimLeft text = text
    · simp [header, selectorBelow, hpos, h, resolve]
    · obtain ⟨c, rest, e, -⟩ := ht.header.head
      have hc : c ≠ '&' := by
        rintro rfl
        exact ht.ampersand (mem_of_mem_trimLeft (by simp [e]))
      simp only [header, hpos, h, and_false, if_false, selectorBelow]
      rw [e]
      unfold resolve
      split <;> simp_all

variable {level : Text} {done : List Block} {frames : List Frame}

lemma isSpaces_times (hl : IsSpaces level) (n : Nat) : IsSpaces (times n level) := by
  induction n with
  | zero => exact isSpaces_nil
  | succ n ih =>
    rw [times_succ]
    exact hl.append ih

/-- Lines as text, each behind its indentation. -/
def rendered (level : Text) (ls : List Line) : Text := unlines (ls.map (Line.render level))

lemma rendered_append (ls ms : List Line) :
    rendered level (ls ++ ms) = rendered level ls ++ rendered level ms := by
  simp [rendered]

lemma rendered_cons (l : Line) (ls : List Line) :
    rendered level (l :: ls) = rendered level [l] ++ rendered level ls :=
  rendered_append [l] ls

lemma rendered_content (depth : Nat) (text : Text) :
    rendered level [.content depth text] = times depth level ++ (text ++ ['\n']) := by
  simp [rendered, unlines, Line.render]

/-- The reader stands between two items, `depth` blocks being open. -/
structure IsBetween (st : Reader.State) (depth : Nat) : Prop where
  phase : st.phase = .items
  depth : st.frames.length = depth

lemma IsBetween.deliver {st : Reader.State} {depth : Nat} (h : IsBetween st depth)
    (bs : List Block) : IsBetween (st.deliver bs) depth :=
  ⟨by simp [h.phase], by simp [h.depth]⟩

/-- Between two items, a line is read as its text. -/
lemma run?_content {st st' : Reader.State} {n n' : Nat} {text : Text} (depth : Nat)
    (hl : IsSpaces level) (hst : IsBetween st n) (hst' : IsBetween st' n')
    (h : run? st text = some st') :
    run? st (rendered level [.content depth text]) = some st' := by
  have hsp : ∀ (st : Reader.State) (w : Text), st.phase = .items → IsSpaces w →
      run? st w = some st := by
    rintro ⟨done, frames, _⟩ w rfl hw
    exact run?_spaces hw
  rw [rendered_content, run?_append_of_run? (hsp _ _ hst.phase (isSpaces_times hl depth)),
    run?_append_of_run? h, hsp _ _ hst'.phase (isSpaces_singleton rfl)]

lemma run?_declarations {f : Frame} {ds : List Declaration} (depth : Nat) (hl : IsSpaces level)
    (hds : ∀ d ∈ ds, IsReadable d) :
    run? ⟨done, f :: frames, .items⟩
        (rendered level (ds.map fun d => .content depth d.written)) =
      some ⟨done, f.declare ds :: frames, .items⟩ := by
  induction ds generalizing f with
  | nil =>
    simp [rendered, Frame.declare]
  | cons d ds ih =>
    have hst : ∀ g : Frame, IsBetween ⟨done, g :: frames, .items⟩ (frames.length + 1) :=
      fun g => ⟨rfl, rfl⟩
    have h := run?_content depth hl (hst f) (hst _) (run?_written (hds d (by simp)))
    rw [List.map_cons, rendered_cons, run?_append_of_run? h, ih fun x hx => hds x (by simp [hx])]
    simp [Frame.declare]

/-- The text of a block: its header, its declarations, what stands in it, and its end. -/
def renderedBlock (level : Text) (depth : Nat) (text : Text) (ds : List Declaration)
    (inner : Text) : Text :=
  rendered level [.content depth (header depth text ++ [' ', '{'])] ++
    (rendered level (ds.map fun d => .content (depth + 1) d.written) ++
      (inner ++ rendered level [.content depth ['}']]))

lemma rendered_lines_cons (text : Text) (ds : List Declaration) (below next : Forest)
    (depth : Nat) (spaced : Bool) :
    rendered level (lines depth spaced (.cons text ds below next)) =
      rendered level (if spaced then [.empty] else []) ++
        (renderedBlock level depth text ds
            (rendered level (lines (depth + 1) (!ds.isEmpty) below)) ++
          rendered level (lines depth spaced next)) := by
  simp [lines, renderedBlock, ← rendered_append]

lemma run?_empty {spaced : Bool} :
    run? ⟨done, frames, .items⟩ (rendered level (if spaced then [.empty] else [])) =
      some ⟨done, frames, .items⟩ := by
  cases spaced
  · rfl
  · exact run?_spaces (isSpaces_singleton rfl)

/-- A block is closed with what was gathered in it. -/
lemma run?_block {text sel inner : Text} {ds : List Declaration} {bs : List Block}
    (hl : IsSpaces level) (ht : IsLegible text) (hds : ∀ d ∈ ds, IsReadable d)
    (hsel : sel = selectorBelow (State.around ⟨done, frames, .items⟩) text)
    (hinner : run? ⟨done, ⟨⟨sel, ds⟩, []⟩ :: frames, .items⟩ inner =
      some ⟨done, ⟨⟨sel, ds⟩, bs⟩ :: frames, .items⟩) :
    run? ⟨done, frames, .items⟩ (renderedBlock level frames.length text ds inner) =
      some (State.deliver ⟨done, frames, .items⟩ (⟨sel, ds⟩ :: bs)) := by
  have hst : IsBetween ⟨done, frames, .items⟩ frames.length := ⟨rfl, rfl⟩
  have hst' : ∀ g : Frame, IsBetween ⟨done, g :: frames, .items⟩ (frames.length + 1) :=
    fun g => ⟨rfl, rfl⟩
  have hr : State.around ⟨done, frames, .items⟩ = none ↔ frames.length = 0 := by
    simp [State.around]
  have hopen : run? ⟨done, frames, .items⟩ (header frames.length text ++ [' ', '{']) =
      some ⟨done, ⟨⟨sel, []⟩, []⟩ :: frames, .items⟩ := by
    rw [run?_of_isHeader (isHeader_header ht frames.length), hsel, ← resolve_header ht hr]
    rfl
  have hheader := run?_content frames.length hl hst (hst' _) hopen
  have hdecls : run? ⟨done, ⟨⟨sel, []⟩, []⟩ :: frames, .items⟩ _ =
      some ⟨done, ⟨⟨sel, ds⟩, []⟩ :: frames, .items⟩ :=
    run?_declarations (frames.length + 1) hl hds
  have hclose := run?_content frames.length hl (hst' _) (hst.deliver _) (run?_close ⟨⟨sel, ds⟩, bs⟩)
  rw [renderedBlock, run?_append_of_run? hheader, run?_append_of_run? hdecls,
    run?_append_of_run? hinner, hclose]

/-- The lines of a forest are read as its blocks. -/
lemma run?_lines {f : Forest} {st : Reader.State} {depth : Nat} (spaced : Bool)
    (hl : IsSpaces level) (hst : IsBetween st depth) (hf : ∀ e ∈ f.walk depth, Legible e) :
    run? st (rendered level (lines depth spaced f)) = some (st.deliver (blocks st.around f)) := by
  induction f generalizing st depth spaced with
  | nil => simp [lines, rendered, blocks]
  | cons text ds below next ihb ihn =>
    simp only [Forest.walk, List.cons_append, List.forall_mem_cons, List.forall_mem_append] at hf
    obtain ⟨⟨ht, hds⟩, hb, hn⟩ := hf
    obtain ⟨done, frames, _⟩ := st
    obtain ⟨rfl, rfl⟩ := hst
    set sel := selectorBelow (State.around ⟨done, frames, .items⟩) text with hsel
    have hbelow : run? ⟨done, ⟨⟨sel, ds⟩, []⟩ :: frames, .items⟩ _ =
        some ⟨done, ⟨⟨sel, ds⟩, blocks (some sel) below⟩ :: frames, .items⟩ :=
      ihb (!ds.isEmpty) (⟨rfl, rfl⟩ : IsBetween _ (frames.length + 1)) hb
    have hblock := run?_block hl ht hds hsel hbelow
    have hst : IsBetween ⟨done, frames, .items⟩ frames.length := ⟨rfl, rfl⟩
    have hnext := ihn spaced (hst.deliver (⟨sel, ds⟩ :: blocks (some sel) below)) hn
    rw [around_deliver] at hnext
    rw [rendered_lines_cons, run?_append_of_run? run?_empty, run?_append_of_run? hblock, hnext,
      ← deliver_append]
    rfl

lemma read?_rendered {f : Forest} {spaced : Bool} (hl : IsSpaces level)
    (hf : ∀ e ∈ f.walk 0, Legible e) :
    read? (rendered level (lines 0 spaced f)) = some (blocks none f) := by
  have hst : IsBetween .initial 0 := ⟨rfl, rfl⟩
  have h := run?_lines spaced hl hst hf
  rw [read?, h]
  rfl

end StyleNest.Scss

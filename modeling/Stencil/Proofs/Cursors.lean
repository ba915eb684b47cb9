import Stencil.Localization.Cursor
import Stencil.Proofs.Search
import Stencil.Proofs.Unfolding

/-!
# Two cursors — localization by byte offsets is the expansion of the text

While references are replaced at byte offsets, the text is always cut into three parts: what is copied,
what is only passed over, and what is still to be read.  No reference starts in the middle part, which
is therefore the start of the next literal run.  Each call leaves the stack as it found it and writes
the expansion of its text behind what was written.

* `Reference.FreeBefore.append` — parts in which no reference starts, one behind the other;
* `Cursor.candidate?_cut` — where two braces are found, no reference starts in front of them;
* `Cursor.sweep?_eq` — a pass from any two cursors on;
* `Cursor.put?_eq` — a call writes the expansion of its text, and gives the stack back;
* `localize_eq_iff_expands` — so localization is what a text is expanded to.
-/

namespace Stencil

open Text (byteLength)

namespace Reference

/-! ## Parts without references -/

theorem freeBefore_nil (behind : List Char) : FreeBefore [] behind := by
  intro left right hsplit hne
  exact absurd (List.append_eq_nil_iff.1 hsplit.symm).2 hne

theorem FreeBefore.append {first second behind : List Char} :
    FreeBefore first (second ++ behind) → FreeBefore second behind →
      FreeBefore (first ++ second) behind := by
  intro hfirst hsecond left right hsplit hne
  rcases List.append_eq_append_iff.1 hsplit with ⟨more, rfl, rfl⟩ | ⟨more, rfl, rfl⟩
  · exact hsecond more right rfl hne
  · -- The tail starts in the first part, or it is all of the second one.
    by_cases hmore : more = []
    · subst hmore
      exact hsecond [] second rfl hne
    · rw [List.append_assoc]
      exact hfirst left more rfl hmore

theorem FreeBefore.free_append {before rest : List Char} :
    FreeBefore before rest → Free rest → Free (before ++ rest) := by
  intro hbefore hrest left right hsplit
  rcases List.append_eq_append_iff.1 hsplit with ⟨more, rfl, rfl⟩ | ⟨more, rfl, rfl⟩
  · exact hrest more right rfl
  · by_cases hmore : more = []
    · subst hmore
      exact hrest [] rest rfl
    · exact hbefore left more rfl hmore

theorem freeBefore_singleton {c : Char} {behind : List Char} :
    ¬ Leads (c :: behind) → FreeBefore [c] behind := by
  intro hfree left right hsplit hne
  rcases List.append_eq_cons_iff.1 hsplit.symm with ⟨-, rfl⟩ | ⟨more, rfl, hmore⟩
  · exact hfree
  · exact absurd (List.append_eq_nil_iff.1 hmore.symm).2 hne

/-- A reference starts with two braces. -/
theorem Leads.braces {text : List Char} : Leads text → ∃ more, text = Tag.braces ++ more := by
  rintro ⟨reference, _, after, rfl⟩
  exact ⟨_, rfl⟩

theorem expandPieces?_append_eq {expandKey? : String → Option (List Char)} {active : List String}
    {before behind : List Char} {reference : Reference}
    (valid : Argument.Valid reference.key.toList)
    (leftmost : FreeBefore before (reference.written ++ behind)) :
    expandPieces? expandKey? active (Mark.pieces (before ++ (reference.written ++ behind))) =
      (if reference.key ∈ active then some reference.written else expandKey? reference.key).bind
        fun here => (expandPieces? expandKey? active (Mark.pieces behind)).map
          fun out => before ++ (here ++ out) := by
  ext out
  rw [expandPieces?_append_eq_some_iff valid leftmost, Option.bind_eq_some_iff]
  simp only [Option.map_eq_some_iff, exists_and_left]

end Reference

namespace Cursor

open Reference (Free FreeBefore Leads expandPieces? expand?)

/-! ## The next braces -/

/-- Where no braces are found, no reference is left. -/
theorem free_of_candidate? {before rest : List Char} :
    Tag.candidate? (before ++ rest) (byteLength before) = none → Free rest := by
  rintro hnone left right rfl hleads
  rcases hleads.braces with ⟨more, rfl⟩
  rcases @Text.exists_find?_le Tag.braces left more with ⟨found, -, hfound⟩
  rw [List.append_assoc] at hfound
  simp [Tag.candidate?, Text.splitBytes?_append, hfound] at hnone

/-- No reference starts in front of the braces that are found next. -/
theorem candidate?_cut {before rest : List Char} {start : Nat} :
    Tag.candidate? (before ++ rest) (byteLength before) = some start →
      ∃ gap more, rest = gap ++ (Tag.braces ++ more) ∧ byteLength (before ++ gap) = start ∧
        FreeBefore gap (Tag.braces ++ more) := by
  intro h
  simp only [Tag.candidate?, Text.splitBytes?_append, Option.bind_eq_bind, Option.bind_some,
    Option.bind_eq_some_iff, Option.pure_def, Option.some.injEq] at h
  rcases h with ⟨found, hfound, rfl⟩
  rcases Text.exists_of_find? hfound with ⟨gap, more, rfl, rfl⟩
  refine ⟨gap, more, List.append_assoc .., Text.byteLength_append .., ?_⟩
  rintro left right rfl hne hleads
  -- A reference there would be found first.
  rcases hleads.braces with ⟨other, hother⟩
  rcases @Text.exists_find?_le Tag.braces left other with ⟨first, hle, hfirst⟩
  have hsame : left ++ Tag.braces ++ other = left ++ right ++ Tag.braces ++ more := by
    rw [List.append_assoc, ← hother]
    simp
  rw [hsame, hfound] at hfirst
  have hpositive : byteLength right ≠ 0 := fun hzero => hne (Text.eq_nil_of_byteLength_eq_zero hzero)
  simp only [Option.some.injEq, Text.byteLength_append] at hfirst
  omega

/-- Two braces that start no reference: none starts at the first of them either. -/
theorem rejected_cut {before rest : List Char} {start : Nat} :
    Tag.candidate? (before ++ rest) (byteLength before) = some start →
      reference? (before ++ rest) start = none →
        ∃ gap behind, rest = gap ++ behind ∧ byteLength (before ++ gap) = start + 1 ∧
          FreeBefore gap behind := by
  intro hcandidate hrejected
  rcases candidate?_cut hcandidate with ⟨gap, more, rfl, rfl, hgap⟩
  have hfree : ¬ Leads (Tag.braces ++ more) := by
    rw [← Reference.at?_eq_none_iff, Option.eq_none_iff_forall_ne_some]
    intro reference hat
    have hread : reference? (before ++ gap ++ (Tag.braces ++ more)) (byteLength (before ++ gap)) =
        some (reference, byteLength reference.written) :=
      reference?_eq_some_iff.2 ⟨hat, rfl⟩
    rw [List.append_assoc, hrejected] at hread
    cases hread
  refine ⟨gap ++ ['{'], '{' :: more, by simp [Tag.braces, Argument.opening], ?_, ?_⟩
  · simp only [Text.byteLength_append]
    exact (Nat.add_assoc ..).symm
  · exact FreeBefore.append hgap (Reference.freeBefore_singleton hfree)

/-- The next reference. -/
theorem read_cut {before rest : List Char} {start length : Nat} {reference : Reference} :
    Tag.candidate? (before ++ rest) (byteLength before) = some start →
      reference? (before ++ rest) start = some (reference, length) →
        ∃ gap after, rest = gap ++ (reference.written ++ after) ∧
          byteLength (before ++ gap) = start ∧ byteLength reference.written = length ∧
          Argument.Valid reference.key.toList ∧ FreeBefore gap (reference.written ++ after) := by
  intro hcandidate hread
  rcases candidate?_cut hcandidate with ⟨gap, more, rfl, rfl, hgap⟩
  rw [← List.append_assoc] at hread
  rcases reference?_eq_some_iff.1 hread with ⟨hat, hlength⟩
  rcases Reference.at?_eq_some_iff.1 hat with ⟨hvalid, after, hafter⟩
  have hsame : reference.written ++ after = Tag.braces ++ more := hafter
  exact ⟨gap, after, by rw [hsame], rfl, hlength, hvalid, by rw [hsame]; exact hgap⟩

/-! ## The parts between the cursors -/

theorem slice_append (before part after : List Char) :
    slice (before ++ part ++ after) (byteLength before) (byteLength (before ++ part)) = part := by
  have hcut : Text.slice? (before ++ part ++ after) (byteLength before)
      (byteLength (before ++ part)) = some part :=
    Text.slice?_eq_some_iff.2 ⟨before, after, rfl, rfl, (Text.byteLength_append ..).symm⟩
  rw [slice, hcut]
  rfl

/-- The run in front of a mark, the mark, and the byte offset behind it. -/
theorem parts_eq (before skipped gap mark after : List Char) :
    let text := before ++ skipped ++ (gap ++ (mark ++ after))
    let start := byteLength (before ++ skipped ++ gap)
    slice text (byteLength before) start = skipped ++ gap ∧
      slice text start (start + byteLength mark) = mark ∧
      start + byteLength mark = byteLength (before ++ skipped ++ gap ++ mark) := by
  have hrun := slice_append before (skipped ++ gap) (mark ++ after)
  have hmark := slice_append (before ++ skipped ++ gap) mark after
  have hstop := Text.byteLength_append (before ++ skipped ++ gap) mark
  simp only [List.append_assoc] at hrun hmark hstop ⊢
  exact ⟨hrun, by rw [← hstop]; exact hmark, hstop.symm⟩

theorem sliceFrom_append (before rest : List Char) :
    sliceFrom (before ++ rest) (byteLength before) = rest := by
  rw [sliceFrom, Text.splitBytes?_append]
  rfl

/-! ## The pass over a text -/

namespace Desk

@[simp] theorem stack_write (desk : Desk) (part : List Char) : (desk.write part).stack = desk.stack :=
  rfl

@[simp] theorem write_write (desk : Desk) (first second : List Char) :
    (desk.write first).write second = desk.write (first ++ second) := by
  simp [write]

@[simp] theorem push_write (desk : Desk) (part : List Char) (key : String) :
    (desk.write part).push key = (desk.push key).write part :=
  rfl

@[simp] theorem pop_write (desk : Desk) (part : List Char) :
    (desk.write part).pop = desk.pop.write part :=
  rfl

@[simp] theorem pop_push (desk : Desk) (key : String) : (desk.push key).pop = desk :=
  rfl

theorem isActive_iff {desk : Desk} {key : String} : desk.isActive key ↔ key ∈ desk.stack := by
  simp [isActive]

end Desk

variable {enter? : String → Desk → Option Desk} {expandKey? : String → Option (List Char)}
  {active : List String}

/-- A pass writes the expansion of what lies behind the first cursor, when no reference starts between
the two, and leaves the stack as it was. -/
theorem sweep?_eq {text : List Char} {copied position : Nat} {desk : Desk}
    {before skipped rest : List Char}
    (inner : ∀ key desk, Desk.stack desk = active → key ∉ active →
      enter? key (desk.push key) = (expandKey? key).map (desk.push key).write)
    (whole : text = before ++ skipped ++ rest) (atCopied : copied = byteLength before)
    (atPosition : position = byteLength (before ++ skipped)) (stack : desk.stack = active) :
    FreeBefore skipped rest →
      sweep? enter? text copied position desk =
        (expandPieces? expandKey? active (Mark.pieces (skipped ++ rest))).map desk.write := by
  intro hskipped
  fun_induction sweep? enter? text copied position desk generalizing before skipped rest with
  | case1 copied position desk hnone =>
      subst whole atCopied atPosition
      have hfree : Free (skipped ++ rest) := hskipped.free_append (free_of_candidate? hnone)
      rw [Reference.pieces_of_free hfree, Reference.expandPieces?_runPieces, List.append_assoc,
        sliceFrom_append]
      rfl
  | case2 copied position desk start hcandidate hrejected ih =>
      subst whole atCopied atPosition
      -- Nothing is copied, and the part that is only passed over grows.
      rcases rejected_cut hcandidate hrejected with ⟨gap, behind, rfl, hstart, hgap⟩
      have hlater := ih (by simp) rfl (by rw [← hstart, List.append_assoc]) stack
        (hskipped.append hgap)
      simpa using hlater
  | case3 copied position desk start hcandidate reference length hread stop upToHere =>
      rename_i hactive ih
      subst whole atCopied atPosition
      rcases read_cut hcandidate hread with ⟨gap, after, rfl, rfl, rfl, hvalid, hgap⟩
      rcases parts_eq before skipped gap reference.written after with ⟨hrun, hmark, hstop⟩
      -- Behind the reference both cursors meet again, and nothing is passed over yet.
      have hkept : reference.key ∈ active := stack ▸ Desk.isActive_iff.1 hactive
      have hlater := ih (by simp) hstop (by rw [List.append_nil]; exact hstop) stack
        (Reference.freeBefore_nil after)
      rw [List.nil_append] at hlater
      rw [hlater, ← List.append_assoc skipped,
        Reference.expandPieces?_append_eq hvalid (hskipped.append hgap), if_pos hkept]
      simp only [upToHere, stop, hrun, hmark]
      cases expandPieces? expandKey? active (Mark.pieces after) <;> simp
  | case4 copied position desk start hcandidate reference length hread stop upToHere =>
      rename_i hnew ih
      subst whole atCopied atPosition
      rcases read_cut hcandidate hread with ⟨gap, after, rfl, rfl, rfl, hvalid, hgap⟩
      rcases parts_eq before skipped gap reference.written after with ⟨hrun, -, hstop⟩
      have hfresh : reference.key ∉ active := fun hmem =>
        hnew (Desk.isActive_iff.2 (stack.symm ▸ hmem))
      rw [← List.append_assoc skipped,
        Reference.expandPieces?_append_eq hvalid (hskipped.append hgap), if_neg hfresh,
        inner reference.key upToHere stack hfresh]
      cases expandKey? reference.key with
      | none =>
          rfl
      | some here =>
          -- The call only writes, so what is popped is the key that was pushed for it.
          have hlater := ih ((upToHere.push reference.key).write here) (by simp) hstop
            (by rw [List.append_nil]; exact hstop) stack (Reference.freeBefore_nil after)
          rw [List.nil_append] at hlater
          simp only [Option.map_some, Option.bind_some]
          rw [hlater]
          simp only [upToHere, hrun]
          cases expandPieces? expandKey? active (Mark.pieces after) <;> simp

/-- A call writes the expansion of its text behind what is written, and gives the stack back. -/
theorem put?_eq (textOf : String → String) (limit : Nat) (text : List Char) (desk : Desk) :
    put? textOf limit text desk = (expand? textOf limit desk.stack text).map desk.write := by
  have hcut : text = [] ++ [] ++ text := rfl
  have hfree : FreeBefore [] text := Reference.freeBefore_nil text
  -- For every desk at once: the calls inside start with one more key on the stack.
  induction limit generalizing text desk with
  | zero =>
      exact sweep?_eq (fun _ _ _ _ => rfl) hcut rfl rfl rfl hfree
  | succ limit ih =>
      refine sweep?_eq (fun key inside hstack _ => ?_) hcut rfl rfl rfl hfree
      rw [ih _ _ rfl (Reference.freeBefore_nil _), ← hstack]
      rfl

/-- A text is localized to what is left on the desk of a call for it. -/
theorem localize?_eq (textOf : String → String) (limit : Nat) (text : String) :
    localize? textOf limit text = (expand? textOf limit [] text.toList).map String.ofList := by
  rw [localize?, put?_eq]
  change Option.map _ (Option.map _ (expand? textOf limit [] text.toList)) = _
  rw [Option.map_map]
  rfl

end Cursor

/-- A text is localized to what it is expanded to.  With any source of texts from which finitely many
keys come up, there is exactly one such result, and a text without references is its own.  The pass with
two cursors writes it behind what was written, with an empty stack before and after, if only as many
keys may stand inside one another as come up; with a lower limit it writes nothing else. -/
theorem localize_eq_iff_expands (text : String) :
    (∀ {L : Type} [Localizer L] (localizer : L) (out : String), localize localizer text = out ↔
      Reference.Expands (Localizer.textOf localizer) ∅ text.toList out.toList) ∧
    ∀ textOf : String → String, {key | Reference.Reaches textOf text.toList key}.Finite →
      ∃ result : String,
        (∀ out, Reference.Expands textOf ∅ text.toList out ↔ out = result.toList) ∧
        (∀ limit, {key | Reference.Reaches textOf text.toList key}.ncard ≤ limit →
          Cursor.localize? textOf limit text = some result ∧
          ∀ output, Cursor.put? textOf limit text.toList ⟨[], output⟩ =
            some ⟨[], output ++ result.toList⟩) ∧
        (∀ limit out, Cursor.localize? textOf limit text = some out → out = result) ∧
        (∀ limit enough, localizeWithin textOf limit text enough = result) ∧
        (Reference.Free text.toList → result = text) := by
  constructor
  · intro L _ localizer out
    rw [Reference.expands_iff_eq (expand?_localize localizer text), String.toList_inj, eq_comm]
  · intro textOf hfinite
    rcases Reference.expand?_of_finite hfinite with ⟨result, hresult⟩
    have hexpands : ∀ out, Reference.Expands textOf ∅ text.toList out ↔ out = result :=
      fun _ => Reference.expands_iff_eq (hresult _ (Nat.le_refl _))
    -- Whatever is expanded within some limit is the one expansion.
    have honly : ∀ limit out, Reference.expand? textOf limit [] text.toList = some out →
        out = result :=
      fun limit out hout => (hexpands out).1 (Reference.expands_iff.2 ⟨limit, hout⟩)
    refine ⟨String.ofList result, by simpa using hexpands, ?reached, ?below, ?within, ?free⟩
    case reached =>
      intro limit hle
      constructor
      · rw [Cursor.localize?_eq, hresult limit hle]
        rfl
      · intro output
        rw [Cursor.put?_eq, hresult limit hle, String.toList_ofList]
        rfl
    case below =>
      intro limit out hout
      rw [Cursor.localize?_eq, Option.map_eq_some_iff] at hout
      rcases hout with ⟨_, hexpand, rfl⟩
      rw [honly limit _ hexpand]
    case within =>
      intro limit enough
      have hsame := honly limit _ (expand?_localizeWithin enough)
      rw [← hsame, String.ofList_toList]
    case free =>
      intro hfree
      rw [← (hexpands _).1 (.run hfree), String.ofList_toList]

/-- The source has a text for every key, and most of its texts refer to ever longer keys.  But from this
text only two keys come up, one of them in the text of the other and in its own. -/
theorem localize_eq_iff_expands_siblings :
    let refer := fun key => String.ofList (Reference.written ⟨key⟩)
    let textOf := fun key =>
      if key = "a" then "[" ++ refer "b" ++ refer "a" ++ "]"
      else if key = "b" then "B" else refer (key ++ "x")
    let text := "\x7b" ++ refer "a" ++ "|" ++ refer "a" ++ "\x7d"
    let out := "\x7b[B" ++ refer "a" ++ "]|[B" ++ refer "a" ++ "]\x7d"
    let plain := (Tag.value "a").toText ++ refer "" ++ "\x7b\x7bi18n:a\x7d"
    {key | Reference.Reaches textOf text.toList key} = {"a", "b"} ∧
      Reference.Expands textOf ∅ text.toList out.toList ∧
      (∀ limit, 2 ≤ limit → Cursor.localize? textOf limit text = some out) ∧
      Reference.Free plain.toList ∧ localize (∅ : Catalog) plain = plain := by
  intro refer textOf text out plain
  have htext : Reference.keys text.toList = ["a", "a"] := by decide +kernel
  have ha : Reference.keys (textOf "a").toList = ["b", "a"] := by decide +kernel
  have hb : Reference.keys (textOf "b").toList = [] := by decide +kernel
  have hreach : {key | Reference.Reaches textOf text.toList key} = {"a", "b"} := by
    ext key
    constructor
    · intro h
      induction h with
      | direct hmem => exact .inl (by simpa [htext] using hmem)
      | through _ hmem ih =>
          rcases ih with rfl | rfl
          · simpa [ha, or_comm] using hmem
          · simp [hb] at hmem
    · have hfirst : Reference.Reaches textOf text.toList "a" := .direct (by simp [htext])
      rintro (rfl | rfl)
      · exact hfirst
      · exact hfirst.through (by simp [ha])
  have hfinite : {key | Reference.Reaches textOf text.toList key}.Finite := by
    rw [hreach]
    exact Set.toFinite _
  have hcount : ({"a", "b"} : Set String).ncard = 2 := Set.ncard_pair (by decide)
  have hexpand : Reference.expand? textOf 2 [] text.toList = some out.toList := by decide +kernel
  have hfree : Reference.Free plain.toList := by
    apply Reference.first?_eq_none_iff.1
    decide +kernel
  rcases (localize_eq_iff_expands text).2 textOf hfinite with
    ⟨result, hexpands, hreached, -⟩
  have hexpanded : Reference.Expands textOf ∅ text.toList out.toList :=
    Reference.expands_iff.2 ⟨2, hexpand⟩
  obtain rfl : out = result := String.toList_injective ((hexpands _).1 hexpanded)
  rw [hreach, hcount] at hreached
  refine ⟨hreach, hexpanded, fun limit hle => (hreached limit hle).1, hfree, ?_⟩
  exact ((localize_eq_iff_expands plain).1 (∅ : Catalog) plain).2 (.run hfree)

end Stencil

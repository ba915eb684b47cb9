import Stencil.Proofs.Unfolding

/-!
# Leftovers — references in a text that is localized already

What a text is localized to is put together from literal runs: its own and those of the texts of its
keys.  No reference stands inside any of them.  But a run may end in the middle of what looks like a
reference, and what is put behind it may happen to complete it.

* `Reference.Acyclic` — no key comes up in its own text;
* `Reference.RunOf` — the literal runs that a text is put together from;
* `Reference.Expands.exists_runs` — without cycles, an expansion is made of these runs alone;
* `Reference.exists_border` — so a reference in it crosses the border of a run;
* `localize_leaves_free` — a text is free of references if none of its runs ends inside one;
* `localize_leaves_reference` — and that is not always so.
-/

namespace Stencil
namespace Reference

variable {textOf : String → String}

/-- No key comes up when its own text is expanded. -/
def Acyclic (textOf : String → String) : Prop :=
  ∀ key, ¬ Reaches textOf (textOf key).toList key

/-! ## Keys of a text and of its parts -/

theorem mem_keys_append {before behind : List Char} {reference : Reference} :
    Argument.Valid reference.key.toList → FreeBefore before (reference.written ++ behind) →
      reference.key ∈ keys (before ++ (reference.written ++ behind)) := by
  intro hvalid hleftmost
  rw [mem_keys, pieces_append hvalid hleftmost]
  exact List.mem_append_right _ List.mem_cons_self

theorem mem_pieces_append {before behind : List Char} {reference : Reference}
    {piece : Piece Reference} :
    Argument.Valid reference.key.toList → FreeBefore before (reference.written ++ behind) →
      piece ∈ Mark.pieces behind →
        piece ∈ Mark.pieces (before ++ (reference.written ++ behind)) := by
  intro hvalid hleftmost hmem
  rw [pieces_append hvalid hleftmost]
  exact List.mem_append_right _ (List.mem_cons_of_mem _ hmem)

theorem Reaches.mono {text whole : List Char} {key : String}
    (part : ∀ piece : Piece Reference, piece ∈ Mark.pieces text → piece ∈ Mark.pieces whole) :
    Reaches textOf text key → Reaches textOf whole key := by
  intro h
  induction h with
  | direct hrefers => exact .direct (mem_keys.2 (part _ (mem_keys.1 hrefers)))
  | through _ hrefers ih => exact ih.through hrefers

/-! ## Literal runs -/

/-- A literal run of a text, or of the text of a key that comes up in it. -/
def RunOf (textOf : String → String) (text run : List Char) : Prop :=
  Piece.literal run ∈ (Mark.pieces text : List (Piece Reference)) ∨
    ∃ key, Reaches textOf text key ∧
      Piece.literal run ∈ (Mark.pieces (textOf key).toList : List (Piece Reference))

theorem RunOf.through {text run : List Char} {key : String} :
    Reaches textOf text key → RunOf textOf (textOf key).toList run → RunOf textOf text run := by
  rintro hreach (hrun | ⟨later, hlater, hrun⟩)
  · exact .inr ⟨key, hreach, hrun⟩
  · exact .inr ⟨later, hreach.trans hlater, hrun⟩

theorem RunOf.mono {text whole run : List Char}
    (part : ∀ piece : Piece Reference, piece ∈ Mark.pieces text → piece ∈ Mark.pieces whole) :
    RunOf textOf text run → RunOf textOf whole run := by
  rintro (hrun | ⟨key, hreach, hrun⟩)
  · exact .inl (part _ hrun)
  · exact .inr ⟨key, hreach.mono part, hrun⟩

theorem Leads.append {text : List Char} (rest : List Char) :
    Leads text → Leads (text ++ rest) := by
  rintro ⟨reference, hvalid, hlead⟩
  exact ⟨reference, hvalid, hlead.trans (List.prefix_append text rest)⟩

theorem not_leads_nil : ¬ Leads [] := by
  rintro ⟨reference, _, hlead⟩
  exact reference.written_ne_nil (List.prefix_nil.1 hlead)

theorem FreeBefore.free {before behind : List Char} :
    FreeBefore before behind → Free before := by
  intro h left right hsplit hlead
  have hne : right ≠ [] := by
    rintro rfl
    exact not_leads_nil hlead
  exact h left right hsplit hne (hlead.append behind)

/-- No reference stands inside a literal run. -/
theorem free_of_literal {text run : List Char} :
    Piece.literal run ∈ (Mark.pieces text : List (Piece Reference)) → Free run := by
  induction text using scan_induction with
  | run whole hfree =>
      intro hmem
      rw [pieces_of_free hfree] at hmem
      by_cases h : whole = [] <;> simp_all [Mark.runPieces]
  | mark before reference behind hvalid hleftmost ih =>
      intro hmem
      rw [pieces_append hvalid hleftmost, List.mem_append, List.mem_cons] at hmem
      rcases hmem with hbefore | hhere | hbehind
      · have hsame : run = before := by
          by_cases h : before = [] <;> simp_all [Mark.runPieces]
        exact hsame ▸ hleftmost.free
      · cases hhere
      · exact ih hbehind

theorem RunOf.free {text run : List Char} : RunOf textOf text run → Free run := by
  rintro (hrun | ⟨_, _, hrun⟩)
  · exact free_of_literal hrun
  · exact free_of_literal hrun

/-- The runs of a run without references: itself, unless it is empty. -/
theorem exists_runs_of_runPieces (run : List Char) :
    ∃ runs : List (List Char), run = runs.flatten ∧
      ∀ part ∈ runs, Piece.literal part ∈ (Mark.runPieces run : List (Piece Reference)) := by
  by_cases h : run = []
  · exact ⟨[], by simp [h], by simp⟩
  · exact ⟨[run], by simp, by simp [Mark.runPieces, h]⟩

/-- Without cycles, no key comes up inside its own text, so an expansion is made of literal runs
alone. -/
theorem Expands.exists_runs {active : Set String} {text out : List Char}
    (acyclic : Acyclic textOf) :
    Expands textOf active text out →
      (∀ key ∈ active, ∀ later, Reaches textOf text later →
        Reaches textOf (textOf key).toList later) →
      ∃ runs : List (List Char), out = runs.flatten ∧ ∀ run ∈ runs, RunOf textOf text run := by
  intro h
  induction h with
  | run hfree =>
      rename_i run
      intro _
      rcases exists_runs_of_runPieces run with ⟨runs, hflat, hruns⟩
      refine ⟨runs, hflat, fun part hmem => .inl ?_⟩
      rw [pieces_of_free hfree]
      exact hruns part hmem
  | keep hvalid hleftmost hagain _ _ =>
      intro hinside
      -- The key comes up inside its own text, which is a cycle.
      have hmem := mem_keys_append hvalid hleftmost
      exact absurd (hinside _ hagain _ (.direct hmem)) (acyclic _)
  | put hvalid hleftmost _ _ _ ihInner ihRest =>
      rename_i active before behind here out reference _ _ _
      intro hinside
      have hreach : Reaches textOf (before ++ (reference.written ++ behind)) reference.key :=
        .direct (mem_keys_append hvalid hleftmost)
      have hpart : ∀ piece : Piece Reference, piece ∈ Mark.pieces behind →
          piece ∈ Mark.pieces (before ++ (reference.written ++ behind)) :=
        fun _ hmem => mem_pieces_append hvalid hleftmost hmem
      have hinsideInner : ∀ key ∈ insert reference.key active, ∀ later,
          Reaches textOf (textOf reference.key).toList later →
            Reaches textOf (textOf key).toList later := by
        rintro key (rfl | hactive) later hlater
        · exact hlater
        · exact hinside key hactive later (hreach.trans hlater)
      have hinsideRest : ∀ key ∈ active, ∀ later, Reaches textOf behind later →
          Reaches textOf (textOf key).toList later :=
        fun key hactive later hlater => hinside key hactive later (hlater.mono hpart)
      rcases exists_runs_of_runPieces before with ⟨first, hfirst, hfirstRuns⟩
      rcases ihInner hinsideInner with ⟨inner, hinner, hinnerRuns⟩
      rcases ihRest hinsideRest with ⟨rest, hrest, hrestRuns⟩
      refine ⟨first ++ (inner ++ rest), ?_, ?_⟩
      · rw [List.flatten_append, List.flatten_append, ← hfirst, ← hinner, ← hrest]
      · intro run hmem
        simp only [List.mem_append] at hmem
        rcases hmem with hmem | hmem | hmem
        · left
          rw [pieces_append hvalid hleftmost]
          exact List.mem_append_left _ (hfirstRuns run hmem)
        · exact (hinnerRuns run hmem).through hreach
        · exact (hrestRuns run hmem).mono hpart

/-! ## Borders of runs -/

/-- A word that stands behind a text made of runs starts in one of them and ends behind it. -/
def CrossesBorder (runs : List (List Char)) (before word : List Char) : Prop :=
  ∃ front run back left right more, runs = front ++ run :: back ∧ run = left ++ right ∧
    before = front.flatten ++ left ∧ word = right ++ more ∧ right ≠ [] ∧ more ≠ []

theorem CrossesBorder.cons {runs : List (List Char)} {before word : List Char}
    (first : List Char) :
    CrossesBorder runs before word → CrossesBorder (first :: runs) (first ++ before) word := by
  rintro ⟨front, run, back, left, right, more, rfl, rfl, rfl, rfl, hright, hmore⟩
  exact ⟨first :: front, _, back, left, right, more, rfl, rfl, by simp, rfl, hright, hmore⟩

/-- A word that stands in no run crosses the border of one. -/
theorem exists_border {runs : List (List Char)} {before word behind : List Char}
    (nonempty : word ≠ []) (outside : ∀ run ∈ runs, ¬ word <:+: run) :
    runs.flatten = before ++ (word ++ behind) → CrossesBorder runs before word := by
  intro h
  induction runs generalizing before with
  | nil =>
      simp_all
  | cons run runs ih =>
      have hlater : ∀ later ∈ runs, ¬ word <:+: later :=
        fun later hmem => outside later (List.mem_cons_of_mem _ hmem)
      rcases List.append_eq_append_iff.1 h with ⟨more, rfl, hmore⟩ | ⟨right, rfl, hright⟩
      · -- The word starts behind the first run.
        exact (ih hlater hmore).cons run
      · by_cases hnil : right = []
        · subst hnil
          have hstart : runs.flatten = [] ++ (word ++ behind) := by simpa using hright.symm
          simpa using (ih hlater hstart).cons before
        · -- The word starts in the first run, so it cannot end there too.
          rcases List.append_eq_append_iff.1 hright with ⟨more, rfl, _⟩ | ⟨more, rfl, _⟩
          · refine absurd ?_ (outside _ List.mem_cons_self)
            exact ⟨before, more, by simp⟩
          · by_cases hmore : more = []
            · refine absurd ?_ (outside _ List.mem_cons_self)
              exact ⟨before, [], by simp [hmore]⟩
            · exact ⟨[], _, runs, before, right, more, rfl, rfl, by simp, rfl, hnil, hmore⟩

/-- The end of a run is the beginning of a reference, but not the whole of it. -/
def EndsInside (run : List Char) : Prop :=
  ∃ left right more, ∃ reference : Reference, run = left ++ right ∧ right ≠ [] ∧ more ≠ [] ∧
    Argument.Valid reference.key.toList ∧ reference.written = right ++ more

theorem brace_mem_of_endsInside {run : List Char} : EndsInside run → '{' ∈ run := by
  rintro ⟨left, right, more, reference, rfl, hright, _, _, hwritten⟩
  cases right with
  | nil =>
      exact absurd rfl hright
  | cons c right =>
      have hbrace : '{' = c := (List.cons.inj hwritten).1
      exact List.mem_append_right left (hbrace ▸ List.mem_cons_self)

/-- Texts that can be ranked so that each refers to lower keys only have no cycles. -/
theorem acyclic_of_rank (rank : String → Nat)
    (lower : ∀ key, Argument.Valid key.toList → ∀ later ∈ keys (textOf key).toList,
      rank later < rank key) :
    Acyclic textOf := by
  have hrank : ∀ key, Argument.Valid key.toList → ∀ later,
      Reaches textOf (textOf key).toList later → rank later < rank key := by
    intro key hvalid later hreach
    induction hreach with
    | direct hrefers => exact lower key hvalid _ hrefers
    | through hfirst hrefers ih => exact (lower _ hfirst.valid _ hrefers).trans ih
  intro key hreach
  exact Nat.lt_irrefl _ (hrank key hreach.valid key hreach)

end Reference

/-- In a catalog, only the keys with a text have to be ranked: placeholders refer to nothing. -/
theorem Catalog.acyclic_of_rank {catalog : Catalog} (rank : String → Nat)
    (lower : ∀ key ∈ catalog.knownKeys, ∀ later ∈ Reference.keys (catalog.textOf key).toList,
      rank later < rank key) :
    Reference.Acyclic catalog.textOf := by
  refine Reference.acyclic_of_rank rank fun key hvalid => ?_
  by_cases h : key ∈ catalog.knownKeys
  · exact lower key h
  · rw [textOf_of_not_mem h, keys_placeholder hvalid]
    simp

/-- Without cycles, no reference stands inside any of the runs that a localized text is made of, so
one that is left in it crosses the border of a run.  If no run ends inside a reference, none is
left. -/
theorem localize_leaves_free (catalog : Catalog) (text : String)
    (acyclic : Reference.Acyclic catalog.textOf) :
    let out := (localize catalog text).toList
    (∃ runs : List (List Char), out = runs.flatten ∧
      (∀ run ∈ runs, Reference.RunOf catalog.textOf text.toList run ∧ Reference.Free run) ∧
      ∀ before (reference : Reference) behind, Argument.Valid reference.key.toList →
        out = before ++ (reference.written ++ behind) →
          Reference.CrossesBorder runs before reference.written) ∧
    ((∀ run, Reference.RunOf catalog.textOf text.toList run → ¬ Reference.EndsInside run) →
      Reference.Free out) := by
  intro out
  have hexpands : Reference.Expands catalog.textOf ∅ text.toList out :=
    expands_localize catalog text
  rcases hexpands.exists_runs acyclic (fun _ hnone => absurd hnone (Set.notMem_empty _)) with
    ⟨runs, hflat, hruns⟩
  have hborder : ∀ before (reference : Reference) behind,
      Argument.Valid reference.key.toList → out = before ++ (reference.written ++ behind) →
        Reference.CrossesBorder runs before reference.written := by
    intro before reference behind hvalid hout
    refine Reference.exists_border reference.written_ne_nil ?_ (hflat.symm.trans hout)
    rintro run hmem ⟨left, right, hrun⟩
    have hsplit : run = left ++ (reference.written ++ right) := by simp [← hrun]
    exact (hruns run hmem).free left _ hsplit ⟨reference, hvalid, List.prefix_append _ _⟩
  refine ⟨⟨runs, hflat, fun run hmem => ⟨hruns run hmem, (hruns run hmem).free⟩, hborder⟩, ?_⟩
  -- The run whose border a reference crosses ends inside that reference.
  rintro hcomplete left _ hout ⟨reference, hvalid, behind, rfl⟩
  rcases hborder left reference behind hvalid hout with
    ⟨front, run, back, inner, right, more, hsplit, hrun, _, hwritten, hright, hmore⟩
  have hmem : run ∈ runs := by simp [hsplit]
  exact hcomplete run (hruns run hmem)
    ⟨inner, right, more, reference, hrun, hright, hmore, hvalid, hwritten⟩

theorem localize_leaves_free_nested :
    let refer := fun key => String.ofList (Reference.written ⟨key⟩)
    let catalog := ((∅ : Catalog).insert "en" "a" ("x" ++ refer "b")).insert "en" "b" "B"
    let text := "<p>" ++ refer "a" ++ "</p>"
    Reference.Acyclic catalog.textOf ∧
      (∀ run, Reference.RunOf catalog.textOf text.toList run → ¬ Reference.EndsInside run) ∧
      Reference.Free (localize catalog text).toList := by
  intro refer catalog text
  have hacyclic : Reference.Acyclic catalog.textOf := by
    refine Catalog.acyclic_of_rank (fun key => if key = "a" then 1 else 0) ?_
    decide +kernel
  have hpieces : (Mark.pieces text.toList : List (Piece Reference)) =
      [.literal "<p>".toList, .mark ⟨"a"⟩, .literal "</p>".toList] := by
    decide +kernel
  have hpiecesA : (Mark.pieces (catalog.textOf "a").toList : List (Piece Reference)) =
      [.literal "x".toList, .mark ⟨"b"⟩] := by
    decide +kernel
  have hpiecesB : (Mark.pieces (catalog.textOf "b").toList : List (Piece Reference)) =
      [.literal "B".toList] := by
    decide +kernel
  -- Only these two keys come up, and no run of theirs has a brace.
  have hreached : ∀ key, Reference.Reaches catalog.textOf text.toList key →
      key = "a" ∨ key = "b" := by
    intro key hreach
    induction hreach with
    | direct hrefers =>
        rw [Reference.mem_keys, hpieces] at hrefers
        simp_all
    | through _ hrefers ih =>
        rw [Reference.mem_keys] at hrefers
        rcases ih with rfl | rfl
        · simp_all
        · simp_all
  have hcomplete : ∀ run, Reference.RunOf catalog.textOf text.toList run →
      ¬ Reference.EndsInside run := by
    intro run hrun hends
    have hbrace := Reference.brace_mem_of_endsInside hends
    rcases hrun with hrun | ⟨key, hreach, hrun⟩
    · simp only [hpieces, List.mem_cons, Piece.literal.injEq, reduceCtorEq, List.not_mem_nil,
        or_false, false_or] at hrun
      rcases hrun with rfl | rfl <;> simp at hbrace
    · rcases hreached key hreach with rfl | rfl
      · rw [hpiecesA] at hrun
        simp_all
      · rw [hpiecesB] at hrun
        simp_all
  rcases localize_leaves_free catalog text hacyclic with ⟨_, hfree⟩
  exact ⟨hacyclic, hcomplete, hfree hcomplete⟩

/-- An empty text brings what stands around it together, which is a reference then. -/
theorem localize_leaves_reference :
    let refer := fun key => String.ofList (Reference.written ⟨key⟩)
    let catalog := ((∅ : Catalog).insert "en" "a" "").insert "en" "b" "B"
    let text := "\x7b" ++ refer "a" ++ "\x7bi18n:b\x7d\x7d"
    Reference.Acyclic catalog.textOf ∧ localize catalog text = refer "b" ∧
      ¬ Reference.Free (localize catalog text).toList := by
  intro refer catalog text
  have hacyclic : Reference.Acyclic catalog.textOf := by
    refine Catalog.acyclic_of_rank (fun _ => 0) ?_
    decide +kernel
  have hlocalized : localize catalog text = refer "b" := by
    subst text catalog refer
    with_unfolding_all rfl
  refine ⟨hacyclic, hlocalized, fun hfree => ?_⟩
  rw [hlocalized] at hfree
  refine hfree [] _ rfl ⟨⟨"b"⟩, by decide, ?_⟩
  have hwritten : (refer "b").toList = Reference.written ⟨"b"⟩ := String.toList_ofList
  exact hwritten ▸ List.prefix_refl _

end Stencil

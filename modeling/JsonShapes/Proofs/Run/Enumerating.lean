import JsonShapes.Proofs.Catalog.Shuffling
import JsonShapes.Proofs.Emit.Ranks
import JsonShapes.Proofs.Run.Documents
import JsonShapes.Run.Report

/-!
# Runs do not depend on how unions are enumerated

Everything that is written and said in a run is made of the numbers of the documents and of texts,
keys and places of declarations. Shuffled catalogs agree in these, so they pass verification
together and have the same module of all aliases, warning and report
(`Catalog.Shuffled.moduleText_eq` and those beside it). `Shape.enumeration_unseen` puts together
what is computed from shapes, what is done to them and what a run does.

## What there is to show

Each text that a run makes is one of a list that is made from the declarations: lines of the module,
lines of the warning, entries of the report. Shuffled catalogs have as many declarations, in one
order, and for each the same line (`Catalog.Shuffled.line_eq` and those beside it); so the lists are
the same, and nothing is left to be shown of the texts. Verification is the one step that may refuse
a catalog, and as both are sound it refuses neither (`Catalog.Shuffled.verify_eq_ok`).
-/

namespace JsonShapes

/-- Lists whose items are taken to the same one by one are taken to the same. -/
theorem mapM_eq_of_forall₂ {α β γ : Type} {m : Type → Type} [Monad m] [LawfulMonad m]
    {R : α → β → Prop} {f : α → m γ} {g : β → m γ} {l : List α} {l' : List β}
    (h : List.Forall₂ R l l') (hR : ∀ a b, R a b → f a = g b) : l.mapM f = l'.mapM g := by
  induction h with
  | nil => rfl
  | cons hab _ ih => rw [List.mapM_cons, List.mapM_cons, hR _ _ hab, ih]

/-! ### Declarations -/

namespace Declaration.Shuffled

variable {d d' : Declaration} {style : Style}

theorem isObject_eq (h : d.Shuffled d') : d.isObject = d'.isObject :=
  Shape.isObject_of_same h.shape.same

theorem isUnresolved_eq (h : d.Shuffled d') : d.isUnresolved = d'.isUnresolved := by
  rw [Bool.eq_iff_iff, isUnresolved_iff, isUnresolved_iff]
  exact h.shape.eq_emptyArray_iff

theorem warningLine?_eq (h : d.Shuffled d') : d.warningLine? style = d'.warningLine? style := by
  rw [warningLine?, warningLine?, h.places_eq, h.id_eq]

variable (hforeign : d.shape.foreigns = []) (hzero : 0 ∉ d.shape.references)

include hforeign hzero in
theorem line_eq (h : d.Shuffled d') (exported : Bool) :
    d.line style exported = d'.line style exported := by
  rw [line, line, h.shape.text?_eq (.inr hzero) hforeign, h.isObject_eq, h.places_eq, h.id_eq]

include hzero in
theorem report_eq (h : d.Shuffled d') (exported : List Int) :
    Run.reportDeclaration style exported d = Run.reportDeclaration style exported d' := by
  rw [Run.reportDeclaration, Run.reportDeclaration, h.shape.text_eq (.inr hzero), Shape.digest,
    Shape.digest, h.shape.key_eq, h.isUnresolved_eq, h.places_eq, h.id_eq]

theorem reportUnresolved_eq (h : d.Shuffled d') :
    Run.reportUnresolved style d = Run.reportUnresolved style d' := by
  rw [Run.reportUnresolved, Run.reportUnresolved, h.places_eq, h.id_eq]

end Declaration.Shuffled

/-! ### Catalogs -/

namespace Catalog

/-- A declaration whose shape has a text, and a shuffle of it. -/
structure Shown (d d' : Declaration) : Prop where
  shuffled : d.Shuffled d'
  encodable : d.shape.foreigns = []
  zero_not_mem : 0 ∉ d.shape.references

variable {allowed : Shape → Prop} {c c' : Catalog}

namespace Shuffled

/-- Shuffled catalogs have the same declarations in the same order, up to shuffling, and all of them
can be shown. -/
theorem forall₂_declarations (h : c.Shuffled c') (hc : Sound allowed c) :
    List.Forall₂ Shown c.declarations c'.declarations := by
  rw [declarations, declarations, List.forall₂_map_left_iff, List.forall₂_map_right_iff]
  refine forall₂_imp_of_mem h.slots fun slot hslot slot' _ hss' ↦ ?_
  have hfits := hc.fits slot hslot
  refine ⟨hss'.declaration, hfits.encodable, fun hzero ↦ ?_⟩
  exact absurd (hfits.backward 0 hzero).1 (by decide)

theorem forall₂_unresolved (h : c.Shuffled c') (hc : Sound allowed c) :
    List.Forall₂ Shown c.unresolved c'.unresolved :=
  List.rel_filter (fun _ _ hd ↦ iff_of_eq (congrArg (· = true) hd.shuffled.isUnresolved_eq))
    (h.forall₂_declarations hc)

/-- A shuffle of a sound catalog passes verification like the catalog itself. -/
theorem verify_eq_ok (h : c.Shuffled c') (hc : Sound allowed c) : c'.verify = .ok () := by
  have hindex : c'.verifyIndex = .ok () := by
    refine verifyIndex_eq_ok_iff.2 fun entry hentry ↦ ?_
    rw [← h.index_eq] at hentry
    obtain ⟨d, hd, hkey⟩ := verifyIndex_eq_ok_iff.1 hc.verifyIndex_eq_ok entry hentry
    have hrel := rel_lookup_of_slots h.slots entry.2
    rw [hd] at hrel
    generalize hd' : c'.slots.lookup entry.2 = d?' at hrel
    cases hrel with
    | some hdd' => exact ⟨_, rfl, hdd'.key_eq ▸ hkey⟩
  have hslots : c'.verifySlots 0 c'.slots = .ok () := by
    obtain ⟨hchain, hall⟩ := verifySlots_eq_ok_iff.1 hc.verifySlots_eq_ok
    have hnumbers : c.slots.map (·.1) = c'.slots.map (·.1) :=
      map_eq_of_forall₂ h.slots fun _ _ ↦ SlotShuffled.number_eq
    refine verifySlots_eq_ok_iff.2 ⟨hnumbers ▸ hchain, fun slot' hslot' ↦ ?_⟩
    obtain ⟨slot, hslot, hss'⟩ := exists_of_forall₂_right h.slots hslot'
    obtain ⟨hid, hlookup, hknown⟩ := hall slot hslot
    have hd := hss'.declaration
    refine ⟨hd.id_eq ▸ hss'.number_eq ▸ hid, ?_, fun r hr ↦ ?_⟩
    · rw [← h.lookup_eq, ← hd.key_eq, hlookup, hss'.number_eq]
    · rw [← h.contains_eq]
      exact hknown r (hd.shape.mem_references_iff.2 hr)
  rw [verify, hindex]
  exact hslots

theorem moduleText_eq (h : c.Shuffled c') (hc : Sound allowed c) (style : Style)
    (exported : List Int) : c.moduleText style exported = c'.moduleText style exported := by
  rw [moduleText, moduleText, mapM_eq_of_forall₂ (h.forall₂_declarations hc) fun d d' hd ↦ ?_]
  rw [hd.shuffled.line_eq hd.encodable hd.zero_not_mem, hd.shuffled.id_eq]

theorem warning?_eq (h : c.Shuffled c') (hc : Sound allowed c) (style : Style) :
    warning? style c.unresolved = warning? style c'.unresolved := by
  rw [warning?, warning?, mapM_eq_of_forall₂ (h.forall₂_unresolved hc) fun d d' hd ↦ ?_]
  exact hd.shuffled.warningLine?_eq

/-- The warning has the same lines, whether there are any at all included. -/
theorem warningLines_eq (h : c.Shuffled c') (hc : Sound allowed c) (style : Style) :
    Run.warningLines style c = Run.warningLines style c' := by
  have hempty : c.unresolved.isEmpty = c'.unresolved.isEmpty := by
    rw [Bool.eq_iff_iff, List.isEmpty_iff_length_eq_zero, List.isEmpty_iff_length_eq_zero,
      (h.forall₂_unresolved hc).length_eq]
  rw [Run.warningLines, Run.warningLines, h.warning?_eq hc, hempty]

/-- The report is the same as well: it gives texts, places, and digests of keys. -/
theorem reportText_eq (h : c.Shuffled c') (hc : Sound allowed c) (settings : Settings)
    (documents : List Run.Emitted) :
    (Run.Summary.mk c documents).reportText settings =
      (Run.Summary.mk c' documents).reportText settings := by
  have hdeclarations : ∀ exported,
      c.declarations.map (Run.reportDeclaration settings.style exported) =
        c'.declarations.map (Run.reportDeclaration settings.style exported) := fun exported ↦
    map_eq_of_forall₂ (h.forall₂_declarations hc) fun _ _ hd ↦
      hd.shuffled.report_eq hd.zero_not_mem exported
  have hunresolved : c.unresolved.map (Run.reportUnresolved settings.style) =
      c'.unresolved.map (Run.reportUnresolved settings.style) :=
    map_eq_of_forall₂ (h.forall₂_unresolved hc) fun _ _ hd ↦ hd.shuffled.reportUnresolved_eq
  simp only [Run.Summary.reportText, Run.Summary.report, Run.Summary.exported, hdeclarations,
    hunresolved]

end Shuffled

end Catalog

/-! ### Runs -/

namespace Run

variable {settings : Settings} {folders : Folders} {p : Progress}

/-- However the unions of a run are enumerated, its documents get the same numbers, and what is
written, warned of and reported of them and of the catalog is the same. -/
theorem summary_eq_of_addsEnumerated {documents : List (String × List UInt8)} {summary : Summary}
    (hrun : planAll settings folders documents ⟨.empty, []⟩ = (.ok summary, p))
    {values : List Json} (hreads : List.Forall₂ (Reads folders) documents values)
    {outcome : Except Breach (List Int)} {c : Catalog}
    (h : Catalog.AddsEnumerated settings.policy .empty ((documents.map (·.1)).zip values) outcome
      c) :
    outcome = .ok summary.exported ∧ c.verify = .ok () ∧
      c.moduleText settings.style summary.exported =
        summary.catalog.moduleText settings.style summary.exported ∧
      warningLines settings.style c = warningLines settings.style summary.catalog ∧
      Summary.reportText settings ⟨c, summary.documents⟩ = summary.reportText settings := by
  obtain ⟨values', hreads', hadd⟩ := addDocuments_of_planAll hrun
  obtain rfl : values = values' := by
    refine List.forall₂_eq_eq_eq ▸ forall₂_trans hreads.flip hreads' fun v d v' hv hv' ↦ ?_
    exact Except.ok.inj (hv.symm.trans hv')
  have hsound := (Catalog.tidy_of_addDocuments settings.policy (keyed_of_reads hreads) hadd).1.sound
  obtain ⟨houtcome, hc⟩ := h.eq_ok (keyed_of_reads hreads) (.refl _) hadd
  exact ⟨houtcome, hc.verify_eq_ok hsound, (hc.moduleText_eq hsound _ _).symm,
    (hc.warningLines_eq hsound _).symm, (hc.reportText_eq hsound settings _).symm⟩

end Run

namespace Shape

/-- Nothing shows how the unions of well-formed shapes are enumerated: neither encodings, keys and
texts, nor joins and the orders of discovery in them, nor what hoisting declares in catalogs that
differ in enumerations only. So documents get the same declarations, and a run writes, says and
reports the same, whatever enumerations are chosen on the way. -/
theorem enumeration_unseen (settings : Settings) {s s' t t' : Shape} (hs : s.WellFormed)
    (ht : t.WellFormed) (hss' : s.Shuffled s') (htt' : t.Shuffled t') :
    (s.encoding = s'.encoding ∧ s.key? = s'.key? ∧ ∀ style, s.text? style = s'.text? style) ∧
    (∀ policy, ∃ z z', s.join? policy t = .ok z ∧ s'.join? policy t' = .ok z' ∧
      z.same z' = true ∧ z.Shuffled z') ∧
    (∀ document pointer, Hoisting.Agree Shuffled (s.hoist document pointer)
      (s'.hoist document pointer)) ∧
    (∀ policy documents, (∀ document ∈ documents, document.2.Keyed) →
      ∃ roots c, Hoisting.addDocuments policy documents .empty = (.ok roots, c) ∧
        ∀ outcome c', Catalog.AddsEnumerated policy .empty documents outcome c' →
          outcome = .ok roots ∧ c.Shuffled c') ∧
    ∀ folders documents summary p,
      Run.planAll settings folders documents ⟨.empty, []⟩ = (.ok summary, p) →
      ∀ values, List.Forall₂ (Run.Reads folders) documents values →
      ∀ outcome c, Catalog.AddsEnumerated settings.policy .empty
          ((documents.map (·.1)).zip values) outcome c →
        outcome = .ok summary.exported ∧ c.verify = .ok () ∧
        c.moduleText settings.style summary.exported =
          summary.catalog.moduleText settings.style summary.exported ∧
        Run.warningLines settings.style c = Run.warningLines settings.style summary.catalog ∧
        Run.Summary.reportText settings ⟨c, summary.documents⟩ = summary.reportText settings := by
  have hs' : s'.WellFormed := hs.shuffled hss'
  have ht' : t'.WellFormed := ht.shuffled htt'
  -- encodings and texts, joins, hoisting, documents, and whole runs
  refine ⟨⟨hss'.encoding_eq, ?_, fun style ↦ ?_⟩, fun policy ↦ ?_, fun document pointer ↦ ?_,
    fun policy documents hkeyed ↦ ?_, fun folders documents summary p hrun values hreads _ _ h ↦ ?_⟩
  · rw [key?_eq_ok_iff.2 ⟨hs.foreigns_eq_nil, hss'.key_eq.symm⟩,
      key?_eq_ok_iff.2 ⟨hs'.foreigns_eq_nil, rfl⟩]
  · exact hss'.text?_eq (.inl hs) hs.foreigns_eq_nil
  · have hjoin : (s.join policy t).Shuffled (s'.join policy t') := respects_join hs ht hss' htt'
    exact ⟨_, _, join?_eq_ok hs ht, join?_eq_ok hs' ht', hjoin.same, hjoin⟩
  · exact (agree_hoist document hss' hs pointer).imp fun _ _ ↦ Hoisted.shuffled
  · obtain ⟨roots, c, hadd, -⟩ := Catalog.addDocuments_conform policy hkeyed
    exact ⟨roots, c, hadd, fun _ _ h ↦ h.eq_ok hkeyed (.refl _) hadd⟩
  · exact Run.summary_eq_of_addsEnumerated hrun hreads h

/-- Two unions that are joined to one, each listed from either end, in a field as well; and a
document for which inference lists the kinds of its items in the other order. -/
theorem enumeration_unseen_reversed :
    let inner := union [.prim .null, .ref 1]
    let inner' := union [.ref 1, .prim .null]
    let s := union [.prim .string, .array (.prim .number), .object [⟨"a", true, inner⟩] ["a"]]
    let s' := union [.object [⟨"a", true, inner'⟩] ["a"], .array (.prim .number), .prim .string]
    let fields : List (Field Shape) := [⟨"a", false, .prim .number⟩, ⟨"b", false, .emptyArray⟩]
    let t := union [.object fields ["b", "a"], .prim .boolean]
    let t' := union [.prim .boolean, .object fields ["b", "a"]]
    let value := Json.array [.number (.int 1), .string "x"]
    (s ≠ s' ∧ s.WellFormed ∧ t.WellFormed ∧ s.Shuffled s' ∧ t.Shuffled t') ∧
      (s.encoding = s'.encoding ∧ s.key? = s'.key? ∧ ∀ style, s.text? style = s'.text? style) ∧
      (∃ z z', s.join? .union t = .ok z ∧ s'.join? .union t' = .ok z' ∧ z.same z' = true ∧
        z.Shuffled z') ∧
      Hoisting.Agree Shuffled (s.hoist "in.json" "") (s'.hoist "in.json" "") ∧
      Infers .union value (.array (union [.prim .string, .prim .number])) ∧
      ∃ roots c, Hoisting.addDocuments .union [("in.json", value)] .empty = (.ok roots, c) ∧
        ∃ c', Catalog.AddsEnumerated .union .empty [("in.json", value)] (.ok roots) c' ∧
          c.Shuffled c' := by
  intro inner inner' s s' fields t t' value
  have hinner : inner.Shuffled inner' := .union (List.forall₂_same.2 fun m _ ↦ .refl m) (.swap ..)
  have hs : s.WellFormed := by
    refine .union (by decide) ⟨by decide, by decide, by decide, by decide⟩ ?_
    simp only [List.forall_mem_cons, List.not_mem_nil, false_imp_iff, implies_true, and_true]
    refine ⟨.prim _, .array (.prim _), .object (by decide) (by decide) ?_⟩
    simp only [List.forall_mem_cons, List.not_mem_nil, false_imp_iff, implies_true, and_true]
    refine .union (by decide) ⟨by decide, by decide, by decide, by decide⟩ ?_
    simpa using ⟨.prim _, .ref 1⟩
  have ht : t.WellFormed := by
    refine .union (by decide) ⟨by decide, by decide, by decide, by decide⟩ ?_
    simp only [List.forall_mem_cons, List.not_mem_nil, false_imp_iff, implies_true, and_true]
    exact ⟨.object (by decide) (by decide) (by simpa [fields] using ⟨.prim _, .emptyArray⟩),
      .prim _⟩
  have hss' : s.Shuffled s' := by
    refine .union (.cons (.prim _) (.cons (.array (.prim _)) (.cons ?_ .nil)))
      (List.reverse_perm [_, _, _]).symm
    exact .object _ (.cons ⟨_, _, hinner⟩ .nil)
  have htt' : t.Shuffled t' := .union (List.forall₂_same.2 fun m _ ↦ .refl m) (.swap ..)
  have hinfers : Infers .union value (.array (union [.prim .string, .prim .number])) :=
    .array (.number _) (.cons (.string _) .nil)
      (.cons (.union (List.forall₂_same.2 fun m _ ↦ .refl m) (.swap ..)) (.nil (.refl _)))
  obtain ⟨outcome, c', hadds⟩ :
      ∃ outcome c', Catalog.AddsEnumerated .union .empty [("in.json", value)] outcome c' := by
    rcases hadd : Hoisting.addShape "in.json" _ .empty with ⟨result, c'⟩
    cases result with
    | ok root => exact ⟨_, c', .cons hinfers (.refl _) hadd (.nil (.refl c'))⟩
    | error breach => exact ⟨_, c', .stop hinfers (.refl _) hadd (.refl c')⟩
  obtain ⟨htexts, hjoin, hhoist, hadded, -⟩ := enumeration_unseen .standard hs ht hss' htt'
  obtain ⟨roots, c, hadd, hall⟩ := hadded .union [("in.json", value)]
    (by simpa using .array (by simpa using ⟨.number _, .string _⟩))
  obtain ⟨rfl, hc⟩ := hall outcome c' hadds
  exact ⟨⟨by simp [s, s'], hs, ht, hss', htt'⟩, htexts, hjoin .union, hhoist "in.json" "", hinfers,
    roots, c, hadd, c', hadds, hc⟩

end Shape

end JsonShapes

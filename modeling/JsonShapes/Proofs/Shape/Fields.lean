import JsonShapes.Proofs.Shape.Equality
import Mathlib.Data.String.Basic
import Mathlib.Data.List.Nodup

/-!
# Fields in order of names

`Shape.ofFields` keeps the fields of an object sorted. Among fields with distinct names a field is
determined by its name, so such a list may be read through `Field.get?` alone: sorting does not
change what is got (`get?_sorted`), and two sorted lists agree field by field as soon as they agree
name by name (`forall₂_of_get?`).

Two orders are kept for the fields of an object, and this module is where they meet: by name, which
is how they are stored, and by discovery, which is how they were first seen. Each is a rearrangement
of the other as long as every name is listed once (`inDiscoveryOrder_perm`).

## What is left to later modules

Nothing about lists of fields: a join, a renaming or a widening of objects says for each name what
becomes of the field, and the rest is here. The content of a field is not looked at, so the lemmas
are about fields over any type, which is also how fields that wait for their content to be hoisted
(`Deferred`) are covered by them.
-/

namespace JsonShapes

namespace Field

variable {σ τ : Type}

/-- Fields sorted by name, no name twice. -/
def Increasing (fs : List (Field σ)) : Prop :=
  fs.Pairwise fun f g ↦ f.name < g.name

instance (fs : List (Field σ)) : Decidable (Increasing fs) :=
  inferInstanceAs (Decidable (fs.Pairwise _))

theorem Increasing.nodup {fs : List (Field σ)} (h : Increasing fs) : (fs.map (·.name)).Nodup :=
  List.pairwise_map.2 (h.imp fun hlt ↦ ne_of_lt hlt)

theorem Increasing.tail {f : Field σ} {fs : List (Field σ)} (h : Increasing (f :: fs)) :
    Increasing fs :=
  (List.pairwise_cons.1 h).2

/-- What keeps the names of fields keeps their order. -/
theorem Increasing.map {g : Field σ → Field τ} (hg : ∀ f, (g f).name = f.name)
    {fs : List (Field σ)} (h : Increasing fs) : Increasing (fs.map g) :=
  List.pairwise_map.2 (h.imp fun hlt ↦ by rwa [hg, hg])

/-! ### Getting a field -/

theorem mem_of_get? {fs : List (Field σ)} {name : String} {f : Field σ}
    (h : get? fs name = some f) : f ∈ fs :=
  List.mem_of_find?_eq_some h

theorem name_of_get? {fs : List (Field σ)} {name : String} {f : Field σ}
    (h : get? fs name = some f) : f.name = name := by
  simpa using List.find?_some h

theorem get?_eq_none_iff {fs : List (Field σ)} {name : String} :
    get? fs name = none ↔ name ∉ fs.map (·.name) := by
  simp [get?]

theorem exists_get?_of_mem {fs : List (Field σ)} {name : String} (h : name ∈ fs.map (·.name)) :
    ∃ f, get? fs name = some f :=
  Option.ne_none_iff_exists'.1 fun hnone ↦ get?_eq_none_iff.1 hnone h

/-- Names being distinct, a field is what its name gets. -/
theorem get?_eq_some_iff {fs : List (Field σ)} (h : (fs.map (·.name)).Nodup) {name : String}
    {f : Field σ} : get? fs name = some f ↔ f ∈ fs ∧ f.name = name := by
  refine ⟨fun hf ↦ ⟨mem_of_get? hf, name_of_get? hf⟩, ?_⟩
  rintro ⟨hf, rfl⟩
  obtain ⟨g, hg⟩ := exists_get?_of_mem (List.mem_map_of_mem hf)
  rw [hg, List.inj_on_of_nodup_map h (mem_of_get? hg) hf (name_of_get? hg)]

theorem get?_of_mem {fs : List (Field σ)} (h : (fs.map (·.name)).Nodup) {f : Field σ}
    (hf : f ∈ fs) : get? fs f.name = some f :=
  (get?_eq_some_iff h).2 ⟨hf, rfl⟩

/-- Names being distinct, the order of the fields does not change what a name gets. -/
theorem get?_of_perm {fs gs : List (Field σ)} (h : (fs.map (·.name)).Nodup) (hp : gs.Perm fs)
    (name : String) : get? gs name = get? fs name := by
  have hgs : (gs.map (·.name)).Nodup := (hp.map _).nodup_iff.2 h
  ext f
  rw [get?_eq_some_iff h, get?_eq_some_iff hgs, hp.mem_iff]

/-- What keeps the names of fields commutes with getting them. -/
theorem get?_map {g : Field σ → Field τ} (hg : ∀ f, (g f).name = f.name) (fs : List (Field σ))
    (name : String) : get? (fs.map g) name = (get? fs name).map g := by
  have hname : (fun f ↦ decide ((g f).name = name)) = fun f : Field σ ↦ decide (f.name = name) :=
    funext fun f ↦ by rw [hg]
  rw [get?, get?, List.find?_map, ← hname]
  rfl

/-! ### Fields made from names -/

section FilterMap

variable {g : String → Option (Field σ)} (hg : ∀ name f, g name = some f → f.name = name)
include hg

/-- Of fields made one for each name, a name gets the one that was made for it. -/
theorem get?_filterMap (names : List String) (name : String) :
    get? (names.filterMap g) name = if name ∈ names then g name else none := by
  induction names with
  | nil => rfl
  | cons k names ih =>
    cases hk : g k with
    | none =>
      rw [List.filterMap_cons_none hk, ih]
      by_cases hn : name = k
      · rw [hn, hk, ite_self, if_pos List.mem_cons_self]
      · simp [hn]
    | some f =>
      rw [List.filterMap_cons_some hk]
      by_cases hn : name = k
      · simp [get?, hg k f hk, hn, hk]
      · simpa [get?, hg k f hk, hn, Ne.symm hn] using ih

/-- Fields made from names have these names, if every name makes one. -/
theorem map_name_filterMap {names : List String} (h : ∀ name ∈ names, (g name).isSome) :
    (names.filterMap g).map (·.name) = names := by
  induction names with
  | nil => rfl
  | cons k names ih =>
    obtain ⟨f, hf⟩ := Option.isSome_iff_exists.1 (h k List.mem_cons_self)
    rw [List.filterMap_cons_some hf, List.map_cons, hg k f hf,
      ih fun name hname ↦ h name (List.mem_cons_of_mem _ hname)]

end FilterMap

/-! ### Sorting -/

/-- The fields sorted by name. -/
def sorted (fs : List (Field σ)) : List (Field σ) :=
  fs.mergeSort fun f g ↦ f.name ≤ g.name

theorem sorted_perm (fs : List (Field σ)) : (sorted fs).Perm fs :=
  List.mergeSort_perm _ _

/-- Sorted fields have names that do not decrease. -/
theorem pairwise_sorted (fs : List (Field σ)) :
    (sorted fs).Pairwise fun f g ↦ f.name ≤ g.name := by
  have h : (sorted fs).Pairwise fun f g ↦ decide (f.name ≤ g.name) = true := by
    refine List.pairwise_mergeSort (fun f g k hfg hgk ↦ ?_) (fun f g ↦ ?_) fs
    · rw [decide_eq_true_eq] at hfg hgk ⊢
      exact le_trans hfg hgk
    · simpa using le_total f.name g.name
  exact h.imp fun hle ↦ of_decide_eq_true hle

/-- Distinct names increase once they are sorted. -/
theorem increasing_sorted {fs : List (Field σ)} (h : (fs.map (·.name)).Nodup) :
    Increasing (sorted fs) := by
  have hnodup : ((sorted fs).map (·.name)).Nodup := ((sorted_perm fs).map _).nodup_iff.2 h
  exact (pairwise_sorted fs).imp₂ (fun f g hle hne ↦ lt_of_le_of_ne hle hne)
    (List.pairwise_map.1 hnodup)

/-- Fields that are in order are not touched, so sorting again changes nothing. -/
theorem sorted_of_pairwise {fs : List (Field σ)} (h : fs.Pairwise fun f g ↦ f.name ≤ g.name) :
    sorted fs = fs :=
  List.mergeSort_of_pairwise (h.imp fun hle ↦ decide_eq_true hle)

/-- Names being distinct, sorting does not change what is got. -/
theorem get?_sorted {fs : List (Field σ)} (h : (fs.map (·.name)).Nodup) (name : String) :
    get? (sorted fs) name = get? fs name :=
  get?_of_perm h (sorted_perm fs) name

/-! ### The order of discovery -/

/-- Fields in the order of discovery are fields of the object. -/
theorem mem_of_mem_inDiscoveryOrder {order : List String} {fs : List (Field σ)} {f : Field σ}
    (h : f ∈ inDiscoveryOrder order fs) : f ∈ fs := by
  rcases List.mem_append.1 h with h | h
  · obtain ⟨name, -, hget⟩ := List.mem_filterMap.1 h
    exact List.mem_reverse.1 (mem_of_get? hget)
  · exact (List.mem_filter.1 h).1

/-- Changing the contents of fields does not touch their order. -/
theorem inDiscoveryOrder_map {g : Field σ → Field τ} (hg : ∀ f, (g f).name = f.name)
    (order : List String) (fs : List (Field σ)) :
    inDiscoveryOrder order (fs.map g) = (inDiscoveryOrder order fs).map g := by
  have hget : ∀ name, get? (fs.map g).reverse name = (get? fs.reverse name).map g := by
    intro name
    rw [← List.map_reverse, get?_map hg]
  rw [inDiscoveryOrder, inDiscoveryOrder, List.map_append, List.map_filterMap, List.filter_map]
  refine congrArg₂ _ (List.filterMap_congr fun name _ ↦ hget name) (congrArg _ ?_)
  exact List.filter_congr fun f _ ↦ by rw [Function.comp_apply, hg]

/-- If every name is listed, the order of discovery is that of the names. -/
theorem inDiscoveryOrder_eq {order : List String} {fs : List (Field σ)}
    (hlisted : order.Perm (fs.map (·.name))) :
    inDiscoveryOrder order fs = order.filterMap (get? fs.reverse) := by
  have hrest : (fs.filter fun f ↦ f.name ∉ order) = [] := by
    refine List.filter_eq_nil_iff.2 fun f hf ↦ ?_
    simpa using hlisted.mem_iff.2 (List.mem_map_of_mem hf)
  rw [inDiscoveryOrder, hrest, List.append_nil]

/-- In the order of discovery the names of the fields are the names as listed. -/
theorem map_name_inDiscoveryOrder {order : List String} {fs : List (Field σ)}
    (hlisted : order.Perm (fs.map (·.name))) :
    (inDiscoveryOrder order fs).map (·.name) = order := by
  rw [inDiscoveryOrder_eq hlisted]
  refine map_name_filterMap (fun _ _ ↦ name_of_get?) fun name hname ↦ ?_
  rw [Option.isSome_iff_ne_none, ne_eq, get?_eq_none_iff, not_not, List.map_reverse,
    List.mem_reverse]
  exact hlisted.mem_iff.1 hname

/-- If every name is listed once, the order of discovery rearranges the fields. -/
theorem inDiscoveryOrder_perm {order : List String} {fs : List (Field σ)}
    (h : (fs.map (·.name)).Nodup) (hlisted : order.Perm (fs.map (·.name))) :
    (inDiscoveryOrder order fs).Perm fs := by
  have hget : ∀ name, get? fs.reverse name = get? fs name :=
    get?_of_perm h (List.reverse_perm fs)
  have hself : (fs.map (·.name)).filterMap (get? fs) = fs := by
    rw [List.filterMap_map]
    show fs.filterMap (fun f ↦ get? fs f.name) = fs
    rw [List.filterMap_congr fun f hf ↦ get?_of_mem h hf]
    exact List.filterMap_some
  rw [inDiscoveryOrder_eq hlisted, funext hget]
  exact (hlisted.filterMap _).trans (List.Perm.of_eq hself)

/-! ### Agreement -/

/-- The first names of two sorted lists with the same names are the same. -/
theorem head_name_eq {f : Field σ} {fs : List (Field σ)} {g : Field τ} {gs : List (Field τ)}
    (hf : Increasing (f :: fs)) (hg : Increasing (g :: gs))
    (h : ∀ name, name ∈ (f :: fs).map (·.name) ↔ name ∈ (g :: gs).map (·.name)) :
    f.name = g.name := by
  have hle : ∀ k ∈ (f :: fs).map (·.name), f.name ≤ k := by
    simpa using fun k hk ↦ le_of_lt ((List.pairwise_cons.1 hf).1 k hk)
  have hge : ∀ k ∈ (g :: gs).map (·.name), g.name ≤ k := by
    simpa using fun k hk ↦ le_of_lt ((List.pairwise_cons.1 hg).1 k hk)
  exact le_antisymm (hle _ ((h _).2 (by simp))) (hge _ ((h _).1 (by simp)))

/-- Two sorted lists whose names get related fields are related one by one. By induction over the
first list: the names are the same, so both lists begin with the least of them. -/
theorem forall₂_of_get? {R : Field σ → Field τ → Prop} {fs : List (Field σ)}
    {gs : List (Field τ)} (hfs : Increasing fs) (hgs : Increasing gs)
    (h : ∀ name, Option.Rel R (get? fs name) (get? gs name)) : List.Forall₂ R fs gs := by
  have hnames : ∀ name, name ∈ fs.map (·.name) ↔ name ∈ gs.map (·.name) := by
    intro name
    have hrel := h name
    rw [← not_iff_not, ← get?_eq_none_iff, ← get?_eq_none_iff]
    cases hf : get? fs name <;> cases hg : get? gs name <;> simp_all
  induction fs generalizing gs with
  | nil =>
    cases gs with
    | nil => exact .nil
    | cons g gs => exact absurd ((hnames g.name).2 (by simp)) (by simp)
  | cons f fs ih =>
    cases gs with
    | nil => exact absurd ((hnames f.name).1 (by simp)) (by simp)
    | cons g gs =>
      -- both lists begin with the least of the names
      have hname := head_name_eq hfs hgs hnames
      have hf : f.name ∉ fs.map (·.name) := (List.nodup_cons.1 hfs.nodup).1
      have hg : g.name ∉ gs.map (·.name) := (List.nodup_cons.1 hgs.nodup).1
      refine .cons ?_ (ih hfs.tail hgs.tail (fun name ↦ ?_) fun name ↦ ?_)
      · simpa [get?, hname] using h f.name
      · by_cases hn : name = f.name
        · rw [hn, get?_eq_none_iff.2 hf, hname, get?_eq_none_iff.2 hg]
          exact .none
        · have hrel := h name
          simpa [get?, Ne.symm hn, hname ▸ Ne.symm hn] using hrel
      · by_cases hn : name = f.name
        · exact iff_of_false (hn ▸ hf) (hn ▸ hname ▸ hg)
        · simpa [hn, hname ▸ hn] using hnames name

/-- Names being distinct, what a field of either list has to do with the one of its name in the
other may be checked by name. -/
theorem rel_get?_of_forall₂ {R : Field σ → Field τ → Prop} {fs : List (Field σ)}
    {gs : List (Field τ)} (hR : ∀ f g, R f g → f.name = g.name) (h : List.Forall₂ R fs gs)
    (name : String) : Option.Rel R (get? fs name) (get? gs name) := by
  induction h with
  | nil => exact .none
  | @cons f g fs gs hfg _ ih =>
    by_cases hn : f.name = name
    · simpa [get?, hn, hR f g hfg ▸ hn] using hfg
    · simpa [get?, hn, hR f g hfg ▸ hn] using ih

end Field

end JsonShapes

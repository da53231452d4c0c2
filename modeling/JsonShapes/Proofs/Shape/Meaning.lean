import JsonShapes.Proofs.Shape.Sightings

/-!
# Shapes are known by what they show

Shapes that mean the same show the same (`sightings_of_same`), and well-formed shapes that show the
same mean the same (`same_of_sightings_eq`). So what is to be proved about joins up to equality may
be proved about sets of sightings.

For the second half, every sighting of a shape other than `unknown` has a `head`, which says at
which alternative it was made. As no two alternatives of a well-formed shape have the same head, the
sightings of one alternative are those of the shape that have its head, and the alternatives of two
shapes that show the same can be paired.

## Why heads

A shape shows its alternatives all together, and from a set of sightings it cannot be seen which of
them belong to one alternative. The head of a sighting tells it: a path that begins with an item was
made at an array, one that begins with a name at an object, and where there is no path the mark
itself says it. `same_of_sightings_eq` then goes by induction on the depth of shapes: alternatives
with the same head show the same, so their parts do, and the parts mean the same by the induction.

All of it is for either policy. Where positions are given up, a union shows that it is one, as a
single mark, and no alternatives have to be paired.
-/

namespace JsonShapes

open Sighting

/-! ### Heads -/

/-- The mark that stands for all marks of an alternative. -/
def Mark.head : Mark → Mark
  | .lacks _ => .object
  | m => m

/-- The mark of the alternative at which a sighting is made. -/
def Sighting.head : Sighting → Mark
  | ([], m) => m.head
  | (.item :: _, _) => .array
  | (.member _ :: _, _) => .object

namespace Shape

variable {policy : Policy}

/-- The mark that an alternative is known by. -/
def head : Shape → Mark
  | .prim p => .prim p
  | .ref id => .ref id
  | .emptyArray => .array
  | .array _ => .array
  | .object .. => .object
  | s => .choice s

/-! ### Invariance -/

/-- What a shape shows is a matter of its meaning. The induction is on the sighting, which goes down
one step at a time. -/
theorem Shows.of_same {s t : Shape} {path : List Step} {m : Mark} (h : s.Shows policy path m)
    (hst : s.same t = true) : t.Shows policy path m := by
  induction h generalizing t with
  | anything path m => cases same_cases hst; exact .anything path m
  | prim p => cases same_cases hst; exact .prim p
  | ref id => cases same_cases hst; exact .ref id
  | emptyArray => cases same_cases hst; exact .emptyArray
  | array e => cases same_cases hst; exact .array _
  | object fs order => cases same_cases hst; exact .object _ _
  | item _ ih =>
    cases same_cases hst with
    | array hef => exact .item (ih hef)
  | @lacks fs name order h =>
    cases same_cases hst with
    | @object _ gs _ order' halike =>
      refine .lacks order' ?_
      -- fields that are alike are found under one name, or neither is
      have hrel := Field.rel_get?_of_forall₂ (fun _ _ ↦ Field.Alike.name) halike name
      revert h hrel
      cases Field.get? fs name <;> cases Field.get? gs name <;> simp
      exact fun h halike ↦ halike.optional ▸ h
  | @member fs name f path m order hf h ih =>
    cases same_cases hst with
    | @object _ gs _ order' halike =>
      have hrel := Field.rel_get?_of_forall₂ (fun _ _ ↦ Field.Alike.name) halike name
      rw [hf] at hrel
      cases hg : Field.get? gs name with
      | none => simp [hg] at hrel
      | some g =>
        rw [hg, Option.rel_some_some] at hrel
        exact .member order' hg (ih hrel.content)
  | @alternative ms k path m hpolicy hk h ih =>
    cases same_cases hst with
    | union hl _ =>
      obtain ⟨n, hn, hkn⟩ := hl k hk
      exact .alternative hpolicy hn (ih hkn)
  | choice hpolicy h =>
    have hchoice := same_trans h hst
    cases same_cases hst with
    | union => exact .choice hpolicy hchoice

/-- Shapes that mean the same show the same. -/
theorem sightings_of_same {s t : Shape} (h : s.same t = true) :
    sightings policy s = sightings policy t :=
  Set.ext fun _ ↦ ⟨fun hx ↦ hx.of_same h, fun hx ↦ hx.of_same (same_symm h)⟩

/-- Leaving out what is repeated loses no sighting. -/
theorem sightingsOfAll_distinct (xs : List Shape) :
    sightingsOfAll policy (distinct xs) = sightingsOfAll policy xs := by
  refine Set.Subset.antisymm (sightingsOfAll_subset fun x hx ↦ ?_)
    (sightingsOfAll_subset fun x hx ↦ ?_)
  · exact ⟨x, mem_of_mem_distinct hx, subset_rfl⟩
  · obtain ⟨k, hk, hkx⟩ := exists_mem_distinct hx
    exact ⟨k, hk, (sightings_of_same hkx).ge⟩

/-! ### Nothing is given up in one shape -/

/-- Sightings are closed under the policy if the marks at the root agree and what lies below each
step is closed. -/
theorem closure_eq_of_root_below {F : Set Sighting} (hroot : ∀ m ∈ root F, ∀ n ∈ root F, m.Agree n)
    (hbelow : ∀ step, policy.closure (below F step) = below F step) : policy.closure F = F := by
  have hkept : ¬policy.GivesUp F := Policy.not_givesUp_of_agree hroot
  refine ext_root_below (Policy.root_closure hkept) fun step ↦ ?_
  rw [Policy.below_closure hkept, hbelow]

/-- An object shows at its root that it is one and what it lacks. -/
theorem agree_of_mem_root_object {fs : List (Field Shape)} {order : List String} :
    ∀ m ∈ root (sightings policy (.object fs order)),
      m = .object ∨ ∃ name, m = .lacks name := by
  intro m hm
  rw [root_sightings_object] at hm
  rcases hm with rfl | ⟨name, rfl, -⟩
  · exact Or.inl rfl
  · exact Or.inr ⟨name, rfl⟩

/-- The marks of an object and of what it lacks agree, as they may come from one object. -/
theorem agree_object {m n : Mark} (hm : m = .object ∨ ∃ name, m = .lacks name)
    (hn : n = .object ∨ ∃ name, n = .lacks name) : m.Agree n := by
  rcases hm with rfl | ⟨_, rfl⟩ <;> rcases hn with rfl | ⟨_, rfl⟩ <;> simp [Mark.Agree]

theorem agree_of_mem_singleton {k : Mark} (hk : k.Agree k) :
    ∀ m ∈ ({k} : Set Mark), ∀ n ∈ ({k} : Set Mark), m.Agree n := by
  rintro m rfl n rfl
  exact hk

/-- What one shape shows is closed: marks clash nowhere in it but where it shows everything. -/
theorem closure_sightings (s : Shape) :
    policy.closure (sightings policy s) = sightings policy s := by
  induction s with
  | prim p =>
    by_cases hp : p = .unknown
    · rw [hp, sightings_unknown, Policy.closure_univ]
    · refine closure_eq_of_root_below ?_ fun step ↦ ?_
      · rw [root_sightings_prim hp]
        exact agree_of_mem_singleton rfl
      · rw [below_sightings_prim hp, Policy.closure_empty]
  | emptyArray =>
    refine closure_eq_of_root_below ?_ fun step ↦ by simp
    rw [root_sightings_emptyArray]
    exact agree_of_mem_singleton rfl
  | array e ih =>
    refine closure_eq_of_root_below ?_ fun step ↦ ?_
    · rw [root_sightings_array]
      exact agree_of_mem_singleton rfl
    · cases step with
      | item => rw [below_sightings_array_item, ih]
      | member name => simp
  | object fs order ih =>
    refine closure_eq_of_root_below (fun m hm n hn ↦ ?_) fun step ↦ ?_
    · exact agree_object (agree_of_mem_root_object m hm) (agree_of_mem_root_object n hn)
    · cases step with
      | item => simp
      | member name =>
        rw [below_sightings_object_member]
        cases hf : Field.get? fs name with
        | none => exact Policy.closure_empty
        | some f => exact ih f (Field.mem_of_get? hf)
  | union ms _ =>
    cases policy with
    | union => rfl
    | unknown =>
      refine closure_eq_of_root_below ?_ fun step ↦ by simp
      rw [root_sightings_choice]
      rintro _ ⟨s, rfl, hs⟩ _ ⟨t, rfl, ht⟩
      exact same_trans hs (same_symm ht)
  | ref id =>
    refine closure_eq_of_root_below ?_ fun step ↦ by simp
    rw [root_sightings_ref]
    exact agree_of_mem_singleton rfl
  | foreign thing =>
    have hempty : sightings policy (.foreign thing) = ∅ :=
      Set.eq_empty_of_forall_notMem fun x h ↦ nomatch h
    rw [hempty, Policy.closure_empty]

/-! ### Alternatives and their heads -/

/-- All that a plain shape shows has one head. -/
theorem head_eq_of_shows {s : Shape} (hs : s.isPlain = true) {path : List Step} {m : Mark}
    (h : s.Shows policy path m) : Sighting.head (path, m) = s.head := by
  cases h with
  | alternative | choice | anything => simp [isPlain] at hs
  | _ => rfl

theorem head_head (s : Shape) : s.head.head = s.head := by
  cases s <;> rfl

/-- The head of an alternative is none of an ill-formed union. -/
theorem head_ne_choice {s : Shape} (hs : s.WellFormed) (hplain : s.isPlain = true) (t : Shape) :
    s.head ≠ .choice t := by
  cases hs with
  | union => simp [isPlain] at hplain
  | _ => simp [head]

/-- A shape shows its head. -/
theorem shows_head {s : Shape} (hs : s.WellFormed)
    (hsingle : policy = .unknown ∨ s.isPlain = true) : s.Shows policy [] s.head := by
  cases hs with
  | prim p => exact .prim p
  | emptyArray => exact .emptyArray
  | array => exact .array _
  | object => exact .object _ _
  | union =>
    rcases hsingle with hpolicy | hplain
    · exact .choice hpolicy (same_refl _)
    · simp [isPlain] at hplain
  | ref id => exact .ref id

/-- An alternative is known by its head. -/
theorem eq_of_head_eq {ms : List Shape} (h : Assorted ms) {m n : Shape} (hm : m ∈ ms) (hn : n ∈ ms)
    (hmw : m.WellFormed) (hnw : n.WellFormed) (hhead : m.head = n.head) : m = n := by
  have hobject : m.isObject = true → n.isObject = true → m = n :=
    eq_of_countP_le_one h.objects hm hn
  have harray : m.isArray = true → n.isArray = true → m = n := eq_of_countP_le_one h.arrays hm hn
  cases hmw <;> cases hnw <;> simp_all [head, isObject, isArray]

/-- The sightings of an alternative are those of the whole that have its head. -/
theorem mem_sightings_alternative {s m : Shape} (hs : s.WellFormed) (hne : s ≠ unknown)
    (hm : m ∈ s.alternatives) {x : Sighting} :
    x ∈ sightings .union m ↔ x ∈ sightings .union s ∧ x.head = m.head := by
  have hassorted := hs.assorted hne
  rw [sightings_alternatives s]
  constructor
  · intro hx
    exact ⟨⟨m, hm, hx⟩, head_eq_of_shows (hassorted.plain m hm) hx⟩
  · rintro ⟨⟨n, hn, hx⟩, hhead⟩
    have hnm : n.head = m.head := (head_eq_of_shows (hassorted.plain n hn) hx).symm.trans hhead
    rwa [← eq_of_head_eq hassorted hn hm (hs.mem_alternatives hn) (hs.mem_alternatives hm) hnm]

/-- Alternatives of shapes that show the same can be paired. -/
theorem exists_alternative_of_sightings_eq {s t m : Shape} (hs : s.WellFormed) (ht : t.WellFormed)
    (hsne : s ≠ unknown) (htne : t ≠ unknown) (h : sightings .union s = sightings .union t)
    (hm : m ∈ s.alternatives) :
    ∃ n ∈ t.alternatives, sightings .union m = sightings .union n := by
  have hshown : (([], m.head) : Sighting) ∈ sightings .union t := by
    rw [← h, sightings_alternatives s]
    exact ⟨m, hm, shows_head (hs.mem_alternatives hm) (Or.inr ((hs.assorted hsne).plain m hm))⟩
  rw [sightings_alternatives t] at hshown
  obtain ⟨n, hn, hshown⟩ := hshown
  have hhead : m.head.head = n.head := head_eq_of_shows ((ht.assorted htne).plain n hn) hshown
  refine ⟨n, hn, Set.ext fun x ↦ ?_⟩
  rw [mem_sightings_alternative hs hsne hm, mem_sightings_alternative ht htne hn, h, ← hhead,
    head_head]

/-- The members of a union do not all mean the same as one shape. -/
theorem not_forall_same {ms : List Shape} (hmany : 2 ≤ ms.length) (h : Assorted ms) (n : Shape) :
    ¬∀ m ∈ ms, m.same n = true := by
  intro hall
  match ms, hmany with
  | m :: m' :: _, _ =>
    have hdistinct := (List.pairwise_cons.1 h.distinct).1 m' (by simp)
    have hsame := same_trans (hall m (by simp)) (same_symm (hall m' (by simp)))
    exact Bool.false_ne_true (hdistinct.symm.trans hsame)

/-- Two shapes mean the same if their alternatives can be paired, each with one of the other. -/
theorem union_same_of_alternatives {ms : List Shape} {t : Shape} (hs : (union ms).WellFormed)
    (hl : ∀ m ∈ ms, ∃ n ∈ t.alternatives, m.same n = true)
    (hr : ∀ n ∈ t.alternatives, ∃ m ∈ ms, m.same n = true) : (union ms).same t = true := by
  cases hs with
  | union hmany hassorted _ =>
    cases t with
    | union ns => exact same_union.2 ⟨hl, hr⟩
    | _ => exact absurd (by simpa [alternatives] using hl) (not_forall_same hmany hassorted _)

/-- Shapes mean the same if their alternatives do, one by one. -/
theorem same_of_alternatives {s t : Shape} (hs : s.WellFormed) (ht : t.WellFormed)
    (hl : ∀ m ∈ s.alternatives, ∃ n ∈ t.alternatives, m.same n = true)
    (hr : ∀ n ∈ t.alternatives, ∃ m ∈ s.alternatives, m.same n = true) : s.same t = true := by
  cases s with
  | union ms => exact union_same_of_alternatives hs hl hr
  | _ =>
    cases t with
    | union ns =>
      refine same_symm (union_same_of_alternatives ht (fun n hn ↦ ?_) fun m hm ↦ ?_)
      · obtain ⟨m, hm, hmn⟩ := hr n hn
        exact ⟨m, hm, same_symm hmn⟩
      · obtain ⟨n, hn, hmn⟩ := hl m hm
        exact ⟨n, hn, same_symm hmn⟩
    | _ => simpa [alternatives] using hl

/-! ### The same sightings, the same meaning -/

/-- A shape shows something at its root. -/
theorem exists_shows {s : Shape} (hs : s.WellFormed) : ∃ m, s.Shows policy [] m := by
  cases hs with
  | @union ms hmany hassorted members =>
    cases policy with
    | unknown => exact ⟨_, shows_head (.union hmany hassorted members) (Or.inl rfl)⟩
    | union =>
      obtain ⟨m, hm⟩ := List.exists_mem_of_length_pos (show 0 < ms.length by omega)
      exact ⟨_, .alternative rfl hm (shows_head (members m hm) (Or.inr (hassorted.plain m hm)))⟩
  | prim p => exact ⟨_, .prim p⟩
  | emptyArray => exact ⟨_, .emptyArray⟩
  | array => exact ⟨_, .array _⟩
  | object => exact ⟨_, .object _ _⟩
  | ref id => exact ⟨_, .ref id⟩

/-- Every well-formed shape shows something, so shapes that show the same are both there. -/
theorem sightings_nonempty {s : Shape} (hs : s.WellFormed) : (sightings policy s).Nonempty := by
  obtain ⟨m, hm⟩ := (exists_shows hs : ∃ m, s.Shows policy [] m)
  exact ⟨([], m), hm⟩

/-- Only `unknown` shows that anything may be met. -/
theorem eq_unknown_of_shows {s : Shape} (hs : s.WellFormed)
    (h : s.Shows policy [] (.prim .unknown)) : s = unknown := by
  cases h with
  | anything => rfl
  | prim => rfl
  | @alternative ms k _ _ _ hk h =>
    cases hs with
    | union _ hassorted _ =>
      have hplain := hassorted.plain k hk
      cases h <;> simp [isPlain] at hplain

/-- Only `unknown` shows all marks, so a shape that shows what another one does is unknown only if
that is. -/
theorem ne_unknown_of_sightings_eq {s t : Shape} (hs : s.WellFormed) (hsne : s ≠ unknown)
    (h : sightings policy s = sightings policy t) : t ≠ unknown := by
  rintro rfl
  rw [sightings_unknown] at h
  have hshown : (([], .prim .unknown) : Sighting) ∈ sightings policy s := h ▸ Set.mem_univ _
  exact hsne (eq_unknown_of_shows hs hshown)

/-- Objects that show the same have fields that do. A shape shows something below a name exactly if
it has a field of that name, and its root shows which names may be lacking. -/
theorem rel_get?_of_sightings_eq {fs gs : List (Field Shape)} {order order' : List String}
    (hfs : ∀ f ∈ fs, f.content.WellFormed) (hgs : ∀ g ∈ gs, g.content.WellFormed)
    (h : sightings policy (.object fs order) = sightings policy (.object gs order'))
    (name : String) :
    Option.Rel (fun f g : Field Shape ↦ f.name = g.name ∧ f.optional = g.optional ∧
      sightings policy f.content = sightings policy g.content)
      (Field.get? fs name) (Field.get? gs name) := by
  have hbelow := congrArg (below · (.member name)) h
  simp only [below_sightings_object_member] at hbelow
  -- a field is absent or optional exactly if its name is shown as lacking
  have hlacks : ((Field.get? fs name).all (·.optional) = true ↔
      (Field.get? gs name).all (·.optional) = true) := by
    have hroot := Set.ext_iff.1 (congrArg root h) (.lacks name)
    simpa [root_sightings_object] using hroot
  cases hf : Field.get? fs name with
  | none =>
    cases hg : Field.get? gs name with
    | none => exact .none
    | some g =>
      rw [hf, hg] at hbelow
      exact absurd hbelow.symm (sightings_nonempty (hgs g (Field.mem_of_get? hg))).ne_empty
  | some f =>
    cases hg : Field.get? gs name with
    | none =>
      rw [hf, hg] at hbelow
      exact absurd hbelow (sightings_nonempty (hfs f (Field.mem_of_get? hf))).ne_empty
    | some g =>
      rw [hf, hg] at hbelow hlacks
      refine .some ⟨?_, Bool.eq_iff_iff.2 (by simpa using hlacks), hbelow⟩
      exact (Field.name_of_get? hf).trans (Field.name_of_get? hg).symm

/-- Shapes of which neither is taken apart into alternatives mean the same if they show the same, as
long as this holds of their parts. -/
theorem same_of_sightings_eq_of_parts {s t : Shape} (hs : s.WellFormed) (ht : t.WellFormed)
    (hsingle : policy = .unknown ∨ s.isPlain = true ∧ t.isPlain = true) (hne : s ≠ unknown)
    (h : sightings policy s = sightings policy t)
    (ih : ∀ e f : Shape, e.depth < s.depth → e.WellFormed → f.WellFormed →
      sightings policy e = sightings policy f → e.same f = true) : s.same t = true := by
  have htne : t ≠ unknown := ne_unknown_of_sightings_eq hs hne h
  have hshown : t.Shows policy [] s.head := by
    have hmem : (([], s.head) : Sighting) ∈ sightings policy s :=
      shows_head hs (hsingle.imp_right And.left)
    rwa [h] at hmem
  -- the head of `s` is shown by `t`, which leaves one kind of shape for `t`
  have hitem := congrArg (below · .item) h
  cases hs with
  | prim p =>
    cases hshown with
    | anything => exact absurd rfl htne
    | prim => exact same_refl _
    | alternative hpolicy => simp [hpolicy, isPlain] at hsingle
  | emptyArray =>
    cases hshown with
    | anything => exact absurd rfl htne
    | emptyArray => rfl
    | array f =>
      cases ht with
      | array hf =>
        simp only [below_sightings_emptyArray, below_sightings_array_item] at hitem
        exact absurd hitem.symm (sightings_nonempty hf).ne_empty
    | alternative hpolicy => simp [hpolicy, isPlain] at hsingle
  | @array e he =>
    cases hshown with
    | anything => exact absurd rfl htne
    | emptyArray =>
      simp only [below_sightings_emptyArray, below_sightings_array_item] at hitem
      exact absurd hitem (sightings_nonempty he).ne_empty
    | array f =>
      cases ht with
      | array hf =>
        simp only [below_sightings_array_item] at hitem
        exact ih e f (by simp [depth]) he hf hitem
    | alternative hpolicy => simp [hpolicy, isPlain] at hsingle
  | @object fs order hincreasing _ hcontents =>
    cases hshown with
    | anything => exact absurd rfl htne
    | object gs order' =>
      cases ht with
      | object hincreasing' _ hcontents' =>
        refine same_object.2 (Field.forall₂_of_get? hincreasing hincreasing' fun name ↦ ?_)
        have hrel := rel_get?_of_sightings_eq hcontents hcontents' h name
        cases hf : Field.get? fs name <;> cases hg : Field.get? gs name <;> rw [hf, hg] at hrel
        · exact .none
        · simp at hrel
        · simp at hrel
        · obtain ⟨hname, hoptional, hcontent⟩ := Option.rel_some_some.1 hrel
          refine .some ⟨hname, hoptional, ih _ _ (depth_lt_of_get? order hf) ?_ ?_ hcontent⟩
          · exact hcontents _ (Field.mem_of_get? hf)
          · exact hcontents' _ (Field.mem_of_get? hg)
    | alternative hpolicy => simp [hpolicy, isPlain] at hsingle
  | union =>
    cases hshown with
    | anything => exact absurd rfl htne
    | alternative hpolicy => simp [hpolicy, isPlain] at hsingle
    | choice _ hsame => exact hsame
  | ref id =>
    cases hshown with
    | anything => exact absurd rfl htne
    | ref => exact same_refl _
    | alternative hpolicy => simp [hpolicy, isPlain] at hsingle

/-- Well-formed shapes that show the same mean the same. By induction over the depth, since the
alternatives of a union are no less deep than the union itself. -/
theorem same_of_sightings_eq {s t : Shape} (hs : s.WellFormed) (ht : t.WellFormed)
    (h : sightings policy s = sightings policy t) : s.same t = true := by
  -- by depth, as the members of a union are no less deep than the union
  obtain ⟨d, hd⟩ : ∃ d, s.depth < d := ⟨_, Nat.lt_succ_self _⟩
  induction d generalizing s t with
  | zero => exact absurd hd (Nat.not_lt_zero _)
  | succ d ih =>
    by_cases hsne : s = unknown
    · subst hsne
      have hshown : (([], .prim .unknown) : Sighting) ∈ sightings policy t :=
        h ▸ sightings_unknown ▸ Set.mem_univ _
      rw [eq_unknown_of_shows ht hshown]
      rfl
    have htne : t ≠ unknown := ne_unknown_of_sightings_eq hs hsne h
    have hparts : ∀ {m n : Shape}, m.depth ≤ s.depth → m.WellFormed → n.WellFormed →
        policy = .unknown ∨ m.isPlain = true ∧ n.isPlain = true → m ≠ unknown →
        sightings policy m = sightings policy n → m.same n = true :=
      fun hm hmw hnw hsingle hne hmn ↦ same_of_sightings_eq_of_parts hmw hnw hsingle hne hmn
        fun e f he hew hfw hef ↦ ih hew hfw hef (by omega)
    cases policy with
    | unknown => exact hparts le_rfl hs ht (Or.inl rfl) hsne h
    | union =>
      -- alternatives are no less deep than the whole, so they are compared by their parts
      have hpair : ∀ m ∈ s.alternatives, ∀ n ∈ t.alternatives,
          sightings .union m = sightings .union n → m.same n = true := by
        intro m hm n hn hmn
        have hmp := (hs.assorted hsne).plain m hm
        have hnp := (ht.assorted htne).plain n hn
        refine hparts ?_ (hs.mem_alternatives hm) (ht.mem_alternatives hn) ?_ ?_ hmn
        · exact depthOfAll_alternatives s ▸ depth_le_of_mem hm
        · exact Or.inr ⟨hmp, hnp⟩
        · rintro rfl
          simp [isPlain] at hmp
      refine same_of_alternatives hs ht (fun m hm ↦ ?_) fun n hn ↦ ?_
      · obtain ⟨n, hn, hmn⟩ := exists_alternative_of_sightings_eq hs ht hsne htne h hm
        exact ⟨n, hn, hpair m hm n hn hmn⟩
      · obtain ⟨m, hm, hmn⟩ := exists_alternative_of_sightings_eq ht hs htne hsne h.symm hn
        exact ⟨m, hm, hpair m hm n hn hmn.symm⟩

end Shape

end JsonShapes

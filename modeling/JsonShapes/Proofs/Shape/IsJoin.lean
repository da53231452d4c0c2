import JsonShapes.Proofs.Shape.Meaning

/-!
# Joins of shapes

`IsJoin policy xs z` says that `z` is the join of the shapes `xs`, whatever the order and grouping
in which they were joined: it is well-formed, no deeper than they are, and shows what they show
together once the policy has resolved their conflicts. As shapes are known by what they show, two
joins of the same shapes mean the same (`IsJoin.same`), and combining from the left joins if
combining two does (`IsJoin.reduce?`).

## Why a relation

What joining a list of shapes gives depends on their order and grouping, but only in things that
equality ignores. To have it as a function of a set one would need a normal form for shapes. The
relation does without: it says what is required of a join, and that two shapes which meet it mean
the same is a theorem. Three shapes have the same joins whichever two are joined first, since joins
of parts of a list are put together to a join of the list (`IsJoin.append`).
-/

namespace JsonShapes

open Sighting

namespace Shape

variable {policy : Policy}

/-- The shape is the join of the shapes. -/
structure IsJoin (policy : Policy) (xs : List Shape) (z : Shape) : Prop where
  /-- It is well-formed. -/
  wellFormed : z.WellFormed
  /-- It is not deeper than the deepest of them. -/
  depth_le : z.depth ≤ depthOfAll xs
  /-- It shows what they show, with conflicts resolved as the policy has it. -/
  sightings_eq : sightings policy z = policy.closure (sightingsOfAll policy xs)

theorem sightingsOfAll_pair (s t : Shape) :
    sightingsOfAll policy [s, t] = sightings policy s ∪ sightings policy t := by
  simp

/-- Shapes are as deep together as the deepest of them. -/
theorem depthOfAll_append (xs ys : List Shape) :
    depthOfAll (xs ++ ys) = max (depthOfAll xs) (depthOfAll ys) := by
  induction xs with
  | nil => simp [depthOfAll]
  | cons x xs ih => simp [depthOfAll, ih, Nat.max_assoc]

namespace IsJoin

theorem single {s : Shape} (hs : s.WellFormed) : IsJoin policy [s] s :=
  ⟨hs, by simp [depthOfAll], by simp [closure_sightings]⟩

/-- Joins of joins are joins of all. -/
theorem append {xs ys : List Shape} {a b c : Shape} (ha : IsJoin policy xs a)
    (hb : IsJoin policy ys b) (hc : IsJoin policy [a, b] c) : IsJoin policy (xs ++ ys) c where
  wellFormed := hc.wellFormed
  depth_le := by
    have := hc.depth_le
    have := ha.depth_le
    have := hb.depth_le
    rw [depthOfAll_append]
    simp only [depthOfAll] at *
    omega
  sightings_eq := by
    rw [hc.sightings_eq, sightingsOfAll_pair, ha.sightings_eq, hb.sightings_eq,
      sightingsOfAll_append]
    exact policy.closure.closure_sup_closure _ _

/-- What joins together is what counts, not the list in which it is given. -/
theorem of_sightingsOfAll_eq {xs ys : List Shape} {z : Shape} (h : IsJoin policy xs z)
    (hdepth : depthOfAll xs ≤ depthOfAll ys)
    (hxy : sightingsOfAll policy xs = sightingsOfAll policy ys) : IsJoin policy ys z :=
  ⟨h.wellFormed, h.depth_le.trans hdepth, hxy ▸ h.sightings_eq⟩

/-- Two joins of the same shapes mean the same. -/
theorem same {xs ys : List Shape} {a b : Shape} (ha : IsJoin policy xs a) (hb : IsJoin policy ys b)
    (h : ∀ x, x ∈ xs ↔ x ∈ ys) : a.same b = true := by
  have hshown : sightings policy a = sightings policy b := by
    rw [ha.sightings_eq, hb.sightings_eq]
    refine congrArg _ (Set.ext fun k ↦ exists_congr fun x ↦ ?_)
    rw [h x]
  exact same_of_sightings_eq ha.wellFormed hb.wellFormed hshown

/-- Shapes that mean the same are joined by either. -/
theorem of_same {s t : Shape} (hs : s.WellFormed) (h : s.same t = true) :
    IsJoin policy [s, t] s := by
  refine (IsJoin.single hs).of_sightingsOfAll_eq ?_ ?_
  · simp [depthOfAll]
  · simp [sightings_of_same h]

end IsJoin

/-! ### Joining from the left -/

/-- Combining from the left joins, if combining two does. -/
theorem IsJoin.foldl {f : Shape → Shape → Shape} (kind : Shape → Prop)
    (hf : ∀ x y, kind x → kind y → x.WellFormed → y.WellFormed →
      kind (f x y) ∧ IsJoin policy [x, y] (f x y)) {xs ys : List Shape} {a : Shape}
    (ha : IsJoin policy xs a) (hka : kind a) (hys : ∀ y ∈ ys, kind y ∧ y.WellFormed) :
    kind (ys.foldl f a) ∧ IsJoin policy (xs ++ ys) (ys.foldl f a) := by
  induction ys generalizing xs a with
  | nil => exact ⟨hka, (List.append_nil xs).symm ▸ ha⟩
  | cons y ys ih =>
    obtain ⟨hky, hy⟩ := hys y List.mem_cons_self
    obtain ⟨hkind, hjoin⟩ := hf a y hka hky ha.wellFormed hy
    have h := ih (ha.append (.single hy) hjoin) hkind fun k hk ↦ hys k (List.mem_cons_of_mem _ hk)
    rwa [List.append_assoc] at h

/-- `reduce?` joins a list of shapes, if combining two of their kind joins these. -/
theorem IsJoin.reduce? {f : Shape → Shape → Shape} (kind : Shape → Prop)
    (hf : ∀ x y, kind x → kind y → x.WellFormed → y.WellFormed →
      kind (f x y) ∧ IsJoin policy [x, y] (f x y)) {xs : List Shape} {z : Shape}
    (hxs : ∀ x ∈ xs, kind x ∧ x.WellFormed) (h : JsonShapes.reduce? f xs = some z) :
    kind z ∧ IsJoin policy xs z := by
  cases xs with
  | nil => simp [JsonShapes.reduce?] at h
  | cons x xs =>
    obtain ⟨hkx, hx⟩ := hxs x List.mem_cons_self
    rw [JsonShapes.reduce?, Option.some.injEq] at h
    subst h
    exact IsJoin.foldl kind hf (.single hx) hkx fun y hy ↦ hxs y (List.mem_cons_of_mem _ hy)

/-- Of the members of one kind, `reduce?` makes at most one, which shows what they all do. The list
is combined from the left, and each step joins what was combined so far with the next member. -/
theorem IsJoin.toList_reduce? {f : Shape → Shape → Shape} {p : Shape → Bool} {d : Nat}
    (hf : ∀ x y, p x = true → p y = true → x.WellFormed → y.WellFormed → x.depth ≤ d →
      y.depth ≤ d → p (f x y) = true ∧ IsJoin policy [x, y] (f x y)) {ms : List Shape}
    (hms : ∀ m ∈ ms, m.WellFormed ∧ m.depth ≤ d) :
    (JsonShapes.reduce? f (ms.filter p)).toList.length ≤ 1 ∧
      (∀ z ∈ (JsonShapes.reduce? f (ms.filter p)).toList,
        p z = true ∧ z.WellFormed ∧ z.depth ≤ depthOfAll ms) ∧
      sightingsOfAll policy (JsonShapes.reduce? f (ms.filter p)).toList =
        policy.closure (sightingsOfAll policy (ms.filter p)) := by
  -- being of the kind and not too deep is kept by combining
  have hkeep : ∀ x y, (p x = true ∧ x.depth ≤ d) → (p y = true ∧ y.depth ≤ d) → x.WellFormed →
      y.WellFormed → (p (f x y) = true ∧ (f x y).depth ≤ d) ∧ IsJoin policy [x, y] (f x y) := by
    rintro x y ⟨hxp, hxd⟩ ⟨hyp, hyd⟩ hx hy
    obtain ⟨hp, hjoin⟩ := hf x y hxp hyp hx hy hxd hyd
    exact ⟨⟨hp, hjoin.depth_le.trans (by simp [depthOfAll, hxd, hyd])⟩, hjoin⟩
  have hfilter : ∀ x ∈ ms.filter p, (p x = true ∧ x.depth ≤ d) ∧ x.WellFormed := by
    intro x hx
    obtain ⟨hx, hxp⟩ := List.mem_filter.1 hx
    exact ⟨⟨hxp, (hms x hx).2⟩, (hms x hx).1⟩
  have hdepth : depthOfAll (ms.filter p) ≤ depthOfAll ms :=
    depthOfAll_le_iff.2 fun x hx ↦ depth_le_of_mem (List.mem_filter.1 hx).1
  cases h : JsonShapes.reduce? f (ms.filter p) with
  | none =>
    have hnil : ms.filter p = [] := by
      cases hl : ms.filter p with
      | nil => rfl
      | cons => simp [hl, JsonShapes.reduce?] at h
    simp [hnil]
  | some z =>
    obtain ⟨⟨hp, -⟩, hjoin⟩ := IsJoin.reduce? _ hkeep hfilter h
    refine ⟨by simp, ?_, by simpa using hjoin.sightings_eq⟩
    simpa using ⟨hp, hjoin.wellFormed, hjoin.depth_le.trans hdepth⟩

end Shape

end JsonShapes

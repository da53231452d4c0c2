import JsonShapes.Proofs.Catalog.Calls
import Mathlib.Data.List.Perm.Subperm

/-!
# Verification succeeds

`Catalog.verify` succeeds exactly if the index and the declarations agree, numbers are positive and
increase, and every reference leads to a declaration: one equivalence for each of its two passes
(`verifyIndex_eq_ok_iff`, `verifySlots_eq_ok_iff`). Sound catalogs meet both, and so does whatever
any calls lead to, with any shapes given to them and whether or not they fail (`sound_after`).

## What is not assumed

The calls of `sound_after` may have any arguments: shapes that hoisting would never make, references
to what is not declared, data that are no JSON. Some of them are refused, and a refusal leaves the
catalog as it was. So whatever was tried, verification succeeds, and there is one declaration of the
array without items at most, since there is one key for it.
-/

namespace JsonShapes

/-- A declaration is unresolved if it is that of an array of which no item was seen. -/
theorem Declaration.isUnresolved_iff {d : Declaration} :
    d.isUnresolved = true ↔ d.shape = .emptyArray := by
  rw [isUnresolved]
  split
  · next h => exact iff_of_true rfl h
  · next h => exact iff_of_false Bool.false_ne_true h

namespace Catalog

variable {c : Catalog}

/-! ### What is verified -/

/-- The first pass wants each entry of the index to lead to a declaration with its key. -/
theorem verifyIndex_eq_ok_iff : c.verifyIndex = .ok () ↔
    ∀ entry ∈ c.index, ∃ d, c.slots.lookup entry.2 = some d ∧ d.key = entry.1 := by
  rw [verifyIndex, Shape.forM_eq_ok_iff]
  refine forall₂_congr fun entry _ ↦ ?_
  cases hlookup : c.slots.lookup entry.2 with
  | none => simp [hlookup, throw, throwThe, MonadExceptOf.throw]
  | some d =>
    by_cases h : d.key = entry.1 <;>
      simp [hlookup, h, pure, Except.pure, throw, throwThe, MonadExceptOf.throw]

/-- One slot is in order if its number is above the previous one and its own, its key leads to it
and all that it refers to is declared. -/
theorem verifySlots_cons_eq_ok_iff {previous id : Int} {d : Declaration}
    {rest : List (Int × Declaration)} : c.verifySlots previous ((id, d) :: rest) = .ok () ↔
      previous < id ∧ d.id = id ∧ c.lookup d.key = some id ∧
        (∀ r ∈ d.shape.references, c.contains r = true) ∧ c.verifySlots id rest = .ok () := by
  have hfind : (d.shape.references.find? fun r ↦ !c.contains r) = none ↔
      ∀ r ∈ d.shape.references, c.contains r = true := by
    simp
  rw [← hfind, verifySlots]
  by_cases hid : id ≤ previous ∨ d.id ≠ id
  · rw [if_pos hid]
    refine iff_of_false nofun fun h ↦ ?_
    exact hid.elim (fun hle ↦ absurd h.1 (not_lt.2 hle)) fun hne ↦ hne h.2.1
  rw [if_neg hid]
  obtain ⟨hlt, hself⟩ : previous < id ∧ d.id = id := by simpa using hid
  by_cases hkey : c.lookup d.key = some id
  · rw [if_neg (not_not.2 hkey)]
    cases d.shape.references.find? fun r ↦ !c.contains r with
    | none => simp [hlt, hself, hkey]
    | some r => simp [bind, Except.bind, throw, throwThe, MonadExceptOf.throw]
  · rw [if_pos hkey]
    exact iff_of_false nofun fun h ↦ hkey h.2.2.1

/-- The second pass wants the numbers above the previous one to increase from slot to slot, and each
slot to be known under its key and to refer to what there is. -/
theorem verifySlots_eq_ok_iff {previous : Int} {slots : List (Int × Declaration)} :
    c.verifySlots previous slots = .ok () ↔
      (previous :: slots.map (·.1)).IsChain (· < ·) ∧ ∀ slot ∈ slots, slot.2.id = slot.1 ∧
        c.lookup slot.2.key = some slot.1 ∧ ∀ r ∈ slot.2.shape.references, c.contains r = true := by
  induction slots generalizing previous with
  | nil => simp [verifySlots, pure, Except.pure]
  | cons slot slots ih =>
    rw [verifySlots_cons_eq_ok_iff, ih, List.map_cons, List.isChain_cons_cons, List.forall_mem_cons]
    tauto

/-! ### Sound catalogs pass -/

namespace Sound

variable {allowed : Shape → Prop}

/-- The index of a sound catalog is made of its declarations, so the first pass succeeds. -/
theorem verifyIndex_eq_ok (h : Sound allowed c) : c.verifyIndex = .ok () := by
  refine verifyIndex_eq_ok_iff.2 fun entry hentry ↦ ?_
  rw [h.index_eq] at hentry
  obtain ⟨⟨id, d⟩, hslot, rfl⟩ := List.mem_map.1 hentry
  exact ⟨d, (Entries.lookup_eq_some_iff h.ids_nodup).2 hslot, rfl⟩

/-- The numbers of a sound catalog are those from one on, so the second pass succeeds. -/
theorem verifySlots_eq_ok (h : Sound allowed c) : c.verifySlots 0 c.slots = .ok () := by
  refine verifySlots_eq_ok_iff.2 ⟨List.isChain_iff_pairwise.2 ?_, ?_⟩
  · exact List.pairwise_cons.2 ⟨fun id hid ↦ (h.mem_ids.1 hid).1, h.ids_increasing⟩
  · rintro ⟨id, d⟩ hslot
    refine ⟨(h.fits _ hslot).id_eq, h.lookup_eq_some_iff.2 ⟨d, ?_, rfl⟩, h.known hslot⟩
    exact (Entries.lookup_eq_some_iff h.ids_nodup).2 hslot

/-- A sound catalog passes verification. -/
theorem verify_eq_ok (h : Sound allowed c) : c.verify = .ok () := by
  rw [verify, h.verifyIndex_eq_ok]
  exact h.verifySlots_eq_ok

/-- The array of whose items nothing is known is declared once at most. -/
theorem length_unresolved_le_one (h : Sound allowed c) : c.unresolved.length ≤ 1 := by
  have hkeys : (c.unresolved.map (·.key)).Nodup := by
    have hdeclarations : (c.declarations.map (·.key)).Nodup := by
      rw [declarations, List.map_map]
      exact h.keys_nodup
    exact hdeclarations.sublist (List.filter_sublist.map _)
  -- all that are unresolved have one key
  have hkey : ∀ d ∈ c.unresolved, d.key = Shape.emptyArray.key := by
    intro d hd
    obtain ⟨hd, hunresolved⟩ := List.mem_filter.1 hd
    obtain ⟨slot, hslot, rfl⟩ := List.mem_map.1 hd
    rw [(h.fits slot hslot).key_eq, Declaration.isUnresolved_iff.1 hunresolved]
  have hlength : c.unresolved.length ≤ [Shape.emptyArray.key].length := by
    rw [← List.length_map (·.key)]
    refine (hkeys.subperm fun key hmem ↦ ?_).length_le
    obtain ⟨d, hd, rfl⟩ := List.mem_map.1 hmem
    exact List.mem_singleton.2 (hkey d hd)
  exact hlength

end Sound

/-! ### Whatever is called -/

/-- Whatever was called, with any arguments and any outcome, declarations are numbered from one on,
the index leads from each key to its declaration and keys differ, keys are those of the declared
shapes, places are listed once each and there is one at least, and references lead to declarations
with smaller numbers. So the catalog passes verification, and one declaration at most is unresolved.
-/
theorem sound_after (calls : List Call) :
    Sound (fun _ ↦ True) (empty.after calls) ∧ (empty.after calls).verify = .ok () ∧
      (empty.after calls).unresolved.length ≤ 1 := by
  have hreaches : Reaches (fun _ ↦ True) empty (empty.after calls) :=
    reaches_after (fun _ _ ↦ trivial) (fun _ _ _ _ ↦ trivial) empty
  have hsound := hreaches.sound (sound_empty _)
  exact ⟨hsound, hsound.verify_eq_ok, hsound.length_unresolved_le_one⟩

end Catalog

end JsonShapes

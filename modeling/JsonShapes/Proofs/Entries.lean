import JsonShapes.Entries
import Mathlib.Data.List.Induction
import Mathlib.Data.List.Nodup

/-!
# What is looked up in entries

Entries are read through `List.lookup`. The lemmas here say when a key is found, and what becomes of
the keys and of what is looked up when a key is given a value: a new key comes last, and a known one
keeps its place.

Entries are what the index of a catalog is made of, and the members of objects, and the names in a
folder. In all of them a key is known at most once, and this is kept by every change (`nodup_set`);
where it holds, looking a key up and having an entry are the same (`lookup_eq_some_iff`), so that
the order of entries can be left out of what is said about them (`lookup_eq_of_perm`).
-/

namespace JsonShapes.Entries

variable {κ α : Type}

section Lookup

variable [BEq κ] [LawfulBEq κ]

/-- What a key is looked up as is in an entry. The converse needs distinct keys. -/
theorem mem_of_lookup_eq_some {entries : List (κ × α)} {key : κ} {value : α}
    (h : entries.lookup key = some value) : (key, value) ∈ entries := by
  obtain ⟨l₁, l₂, rfl, -⟩ := List.lookup_eq_some_iff.1 h
  simp

/-- Exactly the keys of no entry are looked up in vain. -/
theorem lookup_eq_none_iff {entries : List (κ × α)} {key : κ} :
    entries.lookup key = none ↔ key ∉ entries.map (·.1) := by
  rw [List.lookup_eq_none_iff, List.mem_map]
  refine ⟨?_, fun h p hp ↦ bne_iff_ne.2 fun hkey ↦ h ⟨p, hp, hkey.symm⟩⟩
  rintro h ⟨p, hp, rfl⟩
  exact bne_iff_ne.1 (h p hp) rfl

/-- Keys being distinct, an entry is what its key is looked up as. -/
theorem lookup_eq_some_iff {entries : List (κ × α)} (h : (entries.map (·.1)).Nodup) {key : κ}
    {value : α} : entries.lookup key = some value ↔ (key, value) ∈ entries := by
  refine ⟨mem_of_lookup_eq_some, fun hm ↦ ?_⟩
  cases hl : entries.lookup key with
  | none => exact absurd (List.mem_map_of_mem hm) (lookup_eq_none_iff.1 hl)
  | some other =>
    have hp := List.inj_on_of_nodup_map h (mem_of_lookup_eq_some hl) hm rfl
    rw [(Prod.mk.inj hp).2]

/-- Keys being distinct, the order of entries does not matter. -/
theorem lookup_eq_of_perm {entries entries' : List (κ × α)} (h : entries.Perm entries')
    (hnodup : (entries.map (·.1)).Nodup) (key : κ) :
    entries.lookup key = entries'.lookup key := by
  refine Option.ext fun value ↦ ?_
  rw [lookup_eq_some_iff hnodup, lookup_eq_some_iff ((h.map _).nodup_iff.1 hnodup), h.mem_iff]

/-- The first entry of a key is the one that counts. -/
theorem lookup_cons [DecidableEq κ] (entry : κ × α) (entries : List (κ × α)) (key : κ) :
    List.lookup key (entry :: entries) =
      if key = entry.1 then some entry.2 else entries.lookup key := by
  by_cases h : key = entry.1
  · rw [List.lookup_cons, if_pos h, beq_iff_eq.2 h]
  · rw [List.lookup_cons, if_neg h, beq_false_of_ne h]

end Lookup

/-! ### Giving a key a value -/

variable [DecidableEq κ]

/-- A new key comes last. -/
theorem set_of_not_mem {key : κ} (value : α) {entries : List (κ × α)}
    (h : key ∉ entries.map (·.1)) : set key value entries = entries ++ [(key, value)] := by
  induction entries with
  | nil => rfl
  | cons entry entries ih =>
    obtain ⟨hne, hnot⟩ := not_or.1 (List.mem_cons.not.1 h)
    rw [set, if_neg (Ne.symm hne), ih hnot, List.cons_append]

/-- Only the key that was given a value is looked up as something else than before. -/
theorem lookup_set (key : κ) (value : α) (entries : List (κ × α)) (other : κ) :
    (set key value entries).lookup other =
      if other = key then some value else entries.lookup other := by
  induction entries with
  | nil => exact lookup_cons _ _ _
  | cons head entries ih =>
    rw [set]
    by_cases hkey : head.1 = key
    · rw [if_pos hkey, lookup_cons, lookup_cons, hkey]
      split <;> rfl
    · rw [if_neg hkey, lookup_cons, lookup_cons, ih]
      by_cases hother : other = head.1
      · rw [if_pos hother, if_pos hother, if_neg (hother ▸ hkey)]
      · rw [if_neg hother, if_neg hother]

/-- There are no other new entries than the one that was set. -/
theorem mem_of_mem_set {key : κ} {value : α} {entries : List (κ × α)} {entry : κ × α}
    (h : entry ∈ set key value entries) : entry ∈ entries ∨ entry = (key, value) := by
  induction entries with
  | nil => exact Or.inr (List.mem_singleton.1 h)
  | cons head entries ih =>
    rw [set] at h
    split at h
    · exact (List.mem_cons.1 h).symm.imp_left (List.mem_cons_of_mem _)
    · rcases List.mem_cons.1 h with rfl | h
      · exact Or.inl List.mem_cons_self
      · exact (ih h).imp_left (List.mem_cons_of_mem _)

/-- What a new value has in common with the old one is left as it was. -/
theorem map_set_of_lookup {β : Type} {f : κ × α → β} {key : κ} {old new : α}
    {entries : List (κ × α)} (h : entries.lookup key = some old)
    (hf : f (key, old) = f (key, new)) : (set key new entries).map f = entries.map f := by
  induction entries with
  | nil => simp at h
  | cons head entries ih =>
    obtain ⟨other, value⟩ := head
    rw [set]
    by_cases hkey : other = key
    · subst hkey
      rw [List.lookup_cons_self, Option.some.injEq] at h
      rw [if_pos rfl, List.map_cons, List.map_cons, ← hf, h]
    · rw [List.lookup_cons, beq_false_of_ne (Ne.symm hkey)] at h
      rw [if_neg hkey, List.map_cons, List.map_cons, ih h]

/-- The entry in a place is left as it was, unless it is that of the key. -/
theorem getElem?_set_of_lookup {key : κ} {old : α} (new : α) {entries : List (κ × α)}
    (h : entries.lookup key = some old) {i : ℕ} {entry : κ × α} (hi : entries[i]? = some entry) :
    (set key new entries)[i]? = some entry ∨
      entry = (key, old) ∧ (set key new entries)[i]? = some (key, new) := by
  induction entries generalizing i with
  | nil => simp at h
  | cons head entries ih =>
    obtain ⟨other, value⟩ := head
    rw [set]
    by_cases hkey : other = key
    · subst hkey
      rw [List.lookup_cons_self, Option.some.injEq] at h
      rw [if_pos rfl]
      cases i with
      | zero => exact Or.inr ⟨by simpa [h] using hi.symm, rfl⟩
      | succ i => exact Or.inl hi
    · rw [List.lookup_cons, beq_false_of_ne (Ne.symm hkey)] at h
      rw [if_neg hkey]
      cases i with
      | zero => exact Or.inl hi
      | succ i => exact ih h hi

/-- Giving a key a value makes no key known twice: a new key is compared with all others. -/
theorem nodup_set {key : κ} (value : α) {entries : List (κ × α)}
    (h : (entries.map (·.1)).Nodup) : ((set key value entries).map (·.1)).Nodup := by
  cases hold : entries.lookup key with
  | some old =>
    have hkept : (set key value entries).map (·.1) = entries.map (·.1) :=
      map_set_of_lookup hold rfl
    exact hkept ▸ h
  | none =>
    have hkey := lookup_eq_none_iff.1 hold
    rw [set_of_not_mem value hkey, List.map_append]
    refine List.nodup_append.2 ⟨h, List.nodup_singleton _, ?_⟩
    rintro other hother _ hlast rfl
    obtain rfl : other = key := List.mem_singleton.1 hlast
    exact hkey hother

/-! ### Entries from pairs -/

/-- Of pairs each key is left once, with a value that it had. -/
theorem nodup_ofList_and_subset (pairs : List (κ × α)) :
    ((ofList pairs).map (·.1)).Nodup ∧ ofList pairs ⊆ pairs := by
  induction pairs using List.reverseRecOn with
  | nil => exact ⟨List.nodup_nil, List.Subset.refl _⟩
  | append_singleton pairs pair ih =>
    have hlast : ofList (pairs ++ [pair]) = set pair.1 pair.2 (ofList pairs) := by
      rw [ofList, List.foldl_append]
      rfl
    rw [hlast]
    refine ⟨nodup_set _ ih.1, fun entry hentry ↦ List.mem_append.2 ?_⟩
    exact (mem_of_mem_set hentry).imp (fun h ↦ ih.2 h) List.mem_singleton.2

end JsonShapes.Entries

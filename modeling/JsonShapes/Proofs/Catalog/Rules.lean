import JsonShapes.Proofs.Catalog.Inspecting
import JsonShapes.Proofs.Catalog.Verifying

/-!
# What verification decides

A catalog keeps the rules (`Catalog.KeepsRules`) if its index and its declarations say the same of
keys and numbers, every declaration is in the slot of its own number, numbers are positive and
increase, and references lead to declarations. Verification runs once through the index and once
through the slots, and either time looks in one direction only. Together this decides the rules for
all that the stores can hold, such as no call leads to (`Catalog.verify_decides`).

Written down as a walk that looks at the catalog anew in each step (`Hoisting.verify`),
verification is made of parts that only inspect the catalog (`Hoisting.inspect`), so it leaves the
catalog as it was.

That the index has each key once is not among the rules and cannot be seen by verification, which
looks keys up. It is how the index is made: entering a key replaces the entry that it had.

## Why this is not soundness

A sound catalog is one that calls lead to, and such a catalog keeps all the rules. Verification is
for the others: stores that were changed behind its back, with a slot in the wrong place or a key
that leads nowhere. Nothing is assumed here but what holds of every dictionary, and the rules are
stated without regard to the order in which verification checks them, so that the equivalence says
that no check is missing and that none asks for too much.
-/

namespace JsonShapes

namespace Catalog

/-- Checks a slot as the next one after the previous number, and gives its own. -/
def verifySlot (c : Catalog) (previous : Int) (slot : Int × Declaration) : Except Breach Int := do
  if slot.1 ≤ previous ∨ slot.2.id ≠ slot.1 then throw (.idsNotIncreasing slot.1)
  if c.lookup slot.2.key ≠ some slot.1 then throw (.missingFromIndex slot.1)
  if let some target := slot.2.shape.references.find? (!c.contains ·) then
    throw (.danglingReference slot.1 target)
  return slot.1

/-- The slots after one are checked against its number. -/
theorem verifySlots_cons (c : Catalog) (previous : Int) (slot : Int × Declaration)
    (slots : List (Int × Declaration)) : c.verifySlots previous (slot :: slots) =
      c.verifySlot previous slot >>= (c.verifySlots · slots) := by
  rw [verifySlots, verifySlot]
  by_cases hid : slot.1 ≤ previous ∨ slot.2.id ≠ slot.1
  · rw [if_pos hid, if_pos hid]
    rfl
  rw [if_neg hid, if_neg hid]
  by_cases hkey : c.lookup slot.2.key ≠ some slot.1
  · rw [if_pos hkey, if_pos hkey]
    rfl
  rw [if_neg hkey, if_neg hkey]
  cases slot.2.shape.references.find? fun r ↦ !c.contains r <;> rfl

end Catalog

/-! ### Verification, step by step -/

namespace Hoisting

/-- Refuses an entry of the index that leads to no declaration with its key. -/
def requireDeclared (entry : String × Int) : Hoisting Unit := do
  match (← get).slots.lookup entry.2 with
  | some d => unless d.key = entry.1 do throw (.indexOutOfSync entry.1 entry.2)
  | none => throw (.indexOutOfSync entry.1 entry.2)

/-- Refuses a reference of a declaration that leads nowhere. -/
def requireTarget (id target : Int) : Hoisting Unit := do
  unless (← get).contains target do throw (.danglingReference id target)

/-- Refuses a slot whose number is not above the previous one, or is not that of its declaration, or
not what the index says, and a declaration with a reference that leads nowhere. The number is the
previous one for the slot after it. -/
def requireOrderly (previous : Int) (slot : Int × Declaration) : Hoisting Int := do
  if slot.1 ≤ previous ∨ slot.2.id ≠ slot.1 then throw (.idsNotIncreasing slot.1)
  if (← get).lookup slot.2.key ≠ some slot.1 then throw (.missingFromIndex slot.1)
  slot.2.shape.references.forM (requireTarget slot.1)
  return slot.1

/-- Verifies the catalog, entry by entry of the index and then slot by slot. -/
def verify : Hoisting Unit := do
  (← get).index.forM requireDeclared
  let _ ← (← get).slots.foldlM requireOrderly 0

/-- The walk along the index is its check. -/
theorem forM_requireDeclared (c : Catalog) :
    c.index.forM requireDeclared c = (c.verifyIndex, c) := by
  have hinspect : requireDeclared = fun entry ↦ inspect fun c ↦
      match c.slots.lookup entry.2 with
      | some d => if d.key = entry.1 then return else throw (.indexOutOfSync entry.1 entry.2)
      | none => throw (.indexOutOfSync entry.1 entry.2) := by
    funext entry c
    show (match c.slots.lookup entry.2 with
      | some d => _
      | none => _ : Hoisting Unit) c = _
    rw [inspect]
    cases c.slots.lookup entry.2 with
    | none => rfl
    | some d =>
      show (if d.key = entry.1 then _ else _ : Hoisting Unit) c = _
      by_cases hkey : d.key = entry.1
      · simp only [if_pos hkey]
        rfl
      · simp only [if_neg hkey]
        rfl
  rw [hinspect, forM_inspect]
  rfl

/-- Checking targets one by one finds the first that leads nowhere. -/
theorem forM_requireTarget (id : Int) (targets : List Int) :
    targets.forM (requireTarget id) = inspect fun c ↦
      (targets.find? (!c.contains ·)).elim (return) (throw <| .danglingReference id ·) := by
  have hinspect : requireTarget id = fun target ↦ inspect fun c ↦
      if c.contains target then return else throw (.danglingReference id target) := by
    funext target c
    show (if c.contains target then _ else _ : Hoisting Unit) c = _
    rw [inspect]
    split <;> rfl
  rw [hinspect, forM_inspect]
  exact congrArg inspect (funext fun c ↦ forM_guard c.contains (.danglingReference id) targets)

/-- One step along the slots only looks at the catalog. -/
theorem requireOrderly_eq_inspect (previous : Int) (slot : Int × Declaration) :
    requireOrderly previous slot = inspect (·.verifySlot previous slot) := by
  funext c
  rw [inspect, Catalog.verifySlot, requireOrderly, forM_requireTarget]
  by_cases hid : slot.1 ≤ previous ∨ slot.2.id ≠ slot.1
  · rw [if_pos hid, if_pos hid]
    rfl
  rw [if_neg hid, if_neg hid]
  show (if c.lookup slot.2.key ≠ some slot.1 then _ else _ : Hoisting Int) c = _
  by_cases hkey : c.lookup slot.2.key ≠ some slot.1
  · rw [if_pos hkey, if_pos hkey]
    rfl
  rw [if_neg hkey, if_neg hkey]
  show (inspect _ >>= fun _ ↦ inspect fun _ ↦ .ok slot.1) c = _
  rw [inspect_bind, inspect]
  cases slot.2.shape.references.find? fun r ↦ !c.contains r <;> rfl

/-- The previous number, carried from slot to slot, is all that a walk along slots remembers. -/
theorem foldlM_requireOrderly (previous : Int) (slots : List (Int × Declaration)) :
    (do let _ ← slots.foldlM requireOrderly previous : Hoisting Unit) =
      inspect (·.verifySlots previous slots) := by
  induction slots generalizing previous with
  | nil => rfl
  | cons slot slots ih =>
    rw [List.foldlM_cons, bind_assoc, requireOrderly_eq_inspect]
    simp only [ih]
    rw [inspect_bind]
    exact congrArg inspect (funext fun c ↦ (c.verifySlots_cons previous slot slots).symm)

/-- Verification leaves the catalog as it is, whatever the outcome. -/
theorem verify_apply (c : Catalog) : verify c = (c.verify, c) := by
  show (c.index.forM requireDeclared >>= fun _ ↦ _ : Hoisting Unit) c = _
  have hindex := forM_requireDeclared c
  rw [Catalog.verify]
  cases hresult : c.verifyIndex with
  | error breach =>
    rw [hresult] at hindex
    rw [bind_of_error hindex]
    rfl
  | ok _ =>
    rw [hresult] at hindex
    rw [bind_of_ok hindex]
    exact congrFun (foldlM_requireOrderly 0 c.slots) c

end Hoisting

/-! ### The rules -/

namespace Catalog

/-- What is promised of a catalog. -/
structure KeepsRules (c : Catalog) : Prop where
  /-- The index leads from a key to a number if and only if the declaration of the number has the
  key. -/
  index_iff : ∀ key id, c.lookup key = some id ↔ ∃ d, c.slots.lookup id = some d ∧ d.key = key
  /-- Declarations are in the slots of their own numbers. -/
  own_slot : ∀ slot ∈ c.slots, slot.2.id = slot.1
  ids_positive : ∀ slot ∈ c.slots, 0 < slot.1
  /-- Numbers increase in the order of declaration. -/
  ids_increasing : (c.slots.map (·.1)).Pairwise (· < ·)
  /-- References lead to declarations. -/
  references_known : ∀ slot ∈ c.slots, ∀ r ∈ slot.2.shape.references, c.contains r = true

variable {c : Catalog}

/-- Both passes have to succeed. -/
theorem verify_eq_ok_iff :
    c.verify = .ok () ↔ c.verifyIndex = .ok () ∧ c.verifySlots 0 c.slots = .ok () := by
  rw [verify]
  cases c.verifyIndex with
  | ok _ => exact (and_iff_right rfl).symm
  | error _ => simp [bind, Except.bind]

/-- The first pass leads from the index to the declarations, and the second one back. -/
theorem keepsRules_of_verify_eq_ok (h : c.verify = .ok ()) : c.KeepsRules := by
  obtain ⟨hindex, hslots⟩ := verify_eq_ok_iff.1 h
  obtain ⟨hchain, hslots⟩ := verifySlots_eq_ok_iff.1 hslots
  obtain ⟨hpositive, hincreasing⟩ := List.pairwise_cons.1 (List.isChain_iff_pairwise.1 hchain)
  refine ⟨fun key id ↦ ⟨fun hlookup ↦ ?_, ?_⟩, fun slot hslot ↦ (hslots slot hslot).1,
    fun slot hslot ↦ hpositive _ (List.mem_map_of_mem hslot), hincreasing,
    fun slot hslot ↦ (hslots slot hslot).2.2⟩
  · exact verifyIndex_eq_ok_iff.1 hindex _ (Entries.mem_of_lookup_eq_some hlookup)
  · rintro ⟨d, hd, rfl⟩
    exact (hslots _ (Entries.mem_of_lookup_eq_some hd)).2.1

/-- A catalog that keeps the rules passes both. -/
theorem KeepsRules.verify_eq_ok (h : c.KeepsRules) (hindex : (c.index.map (·.1)).Nodup) :
    c.verify = .ok () := by
  have hslots : (c.slots.map (·.1)).Nodup := h.ids_increasing.imp ne_of_lt
  refine verify_eq_ok_iff.2 ⟨verifyIndex_eq_ok_iff.2 fun entry hentry ↦ ?_,
    verifySlots_eq_ok_iff.2 ⟨List.isChain_iff_pairwise.2 ?_, fun slot hslot ↦ ?_⟩⟩
  · exact (h.index_iff entry.1 entry.2).1 ((Entries.lookup_eq_some_iff hindex).2 hentry)
  · refine List.pairwise_cons.2 ⟨fun id hid ↦ ?_, h.ids_increasing⟩
    obtain ⟨slot, hslot, rfl⟩ := List.mem_map.1 hid
    exact h.ids_positive slot hslot
  · have hd := (Entries.lookup_eq_some_iff hslots).2 hslot
    exact ⟨h.own_slot slot hslot, (h.index_iff _ _).2 ⟨slot.2, hd, rfl⟩,
      h.references_known slot hslot⟩

/-- Verification decides the rules, whatever the stores of a catalog hold, and changes nothing. The
index is only supposed to have each key once, as it does however keys are entered. -/
theorem verify_decides (hindex : (c.index.map (·.1)).Nodup) :
    Hoisting.verify c = (c.verify, c) ∧ (c.verify = .ok () ↔ c.KeepsRules) :=
  ⟨Hoisting.verify_apply c, keepsRules_of_verify_eq_ok, (·.verify_eq_ok hindex)⟩

/-- Two catalogs that no call leads to: numbers are left out, a reference leads forward, and the
next number is taken. The rules are kept all the same, until a second key is entered for a
number. -/
theorem verify_decides_tampered :
    let slots : List (Int × Declaration) :=
      [(3, ⟨3, .array (.ref 7), "x", []⟩), (7, ⟨7, .emptyArray, "y", ["a.json"]⟩)]
    let c : Catalog := ⟨slots, [("y", 7), ("x", 3)], 3⟩
    let stale : Catalog := ⟨slots, [("y", 7), ("x", 3), ("z", 3)], 3⟩
    ((c.index.map (·.1)).Nodup ∧ c.KeepsRules) ∧ (stale.index.map (·.1)).Nodup ∧
      ¬stale.KeepsRules ∧ Hoisting.verify stale = (.error (.indexOutOfSync "z" 3), stale) := by
  intro slots c stale
  have hc : (c.index.map (·.1)).Nodup := by decide
  have hstale : (stale.index.map (·.1)).Nodup := by decide
  obtain ⟨hrun, hiff⟩ := verify_decides hstale
  have hrefused : stale.verify = .error (.indexOutOfSync "z" 3) := rfl
  refine ⟨⟨hc, (verify_decides hc).2.1 rfl⟩, hstale, fun hkeeps ↦ ?_, hrefused ▸ hrun⟩
  exact nomatch hrefused.symm.trans (hiff.2 hkeeps)

end Catalog

end JsonShapes

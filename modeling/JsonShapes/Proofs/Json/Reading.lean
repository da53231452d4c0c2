import JsonShapes.Json.Reader
import JsonShapes.Proofs.Entries
import JsonShapes.Proofs.Json.Keyed

/-!
# Values that texts spell

A text may repeat a name in an object, but the value that is read from it does not
(`keyed_of_parse`): an object is built from its members by `Json.ofMembers` only. The items of an
array and the members of an object are read from texts that are shorter than the one that begins
with the bracket, so the proof is by induction on the length of the text; at each length it goes
through a list of items or members by induction on what is left of it.

The reader has five functions that call one another, and only two of them build an object. So what
is said of values is stated for all texts shorter than a bound (`KeyedBelow`), and each function is
treated on the condition that values in shorter texts are as claimed. The bound is the only thing
that the induction is on; that a text gets shorter is carried by what each function returns.
-/

namespace JsonShapes.Json

/-- An object is keyed that is built from members with keyed values, whatever their names are. -/
theorem keyed_ofMembers {members : List (String × Json)}
    (h : ∀ member ∈ members, member.2.Keyed) : (ofMembers members).Keyed := by
  obtain ⟨hnodup, hsubset⟩ := Entries.nodup_ofList_and_subset members
  exact .object hnodup fun member hmember ↦ h member (hsubset hmember)

namespace Reader

variable {standIn : Char}

/-- Words and numbers have no objects in them. -/
theorem keyed_scalar {text : List Char} {parsed : Parsed Json text}
    (h : scalar text = .ok parsed) : parsed.value.Keyed := by
  have hwords : ∀ word ∈ words, word.2.Keyed := by
    simp only [words, List.forall_mem_cons, List.not_mem_nil, false_imp_iff, implies_true, and_true]
    exact ⟨.null, .bool _, .bool _, .number _, .number _, .number _⟩
  rw [scalar] at h
  split at h
  · next found =>
    obtain ⟨⟨expected, value⟩, hword, hfound⟩ := List.exists_of_findSome?_eq_some found
    cases h
    simp only [word?] at hfound
    split at hfound
    · cases hfound
      exact hwords _ hword
    · contradiction
  · simp only [bind, Except.bind, pure, Except.pure] at h
    have hnumber : ∃ n, parsed.value = .number n := by
      split at h
      all_goals
        split at h
        · contradiction
        · cases h
          exact ⟨_, rfl⟩
    obtain ⟨n, hn⟩ := hnumber
    exact hn ▸ .number n

/-- All values read from texts shorter than this are keyed. -/
def KeyedBelow (standIn : Char) (length : Nat) : Prop :=
  ∀ text : List Char, text.length < length → ∀ parsed, value standIn text = .ok parsed →
    parsed.value.Keyed

/-- Items are read one after another from texts that get shorter, and all of them are keyed. -/
theorem keyed_items {length : Nat} (hvalue : KeyedBelow standIn length) {opening : List Char}
    {done : List Json} {text : List Char} {h : text.length < opening.length}
    (hlength : text.length < length) (hdone : ∀ item ∈ done, item.Keyed)
    {parsed : Parsed Json opening} (hitems : items standIn opening done text h = .ok parsed) :
    parsed.value.Keyed := by
  induction hn : text.length using Nat.strongRecOn generalizing done text with
  | ind n ih =>
    rw [items] at hitems
    split at hitems
    · contradiction
    · next item hitem =>
      have hkeyed : ∀ i ∈ item.value :: done, i.Keyed :=
        List.forall_mem_cons.2 ⟨hvalue text hlength item hitem, hdone⟩
      have hshorter := item.shorter
      have hskip := length_skip_le item.rest
      simp only at hitems
      split at hitems
      · cases hitems
        exact .array fun i hi ↦ hkeyed i (List.mem_reverse.1 hi)
      · next after hafter =>
        have hless := length_skip_le after
        rw [hafter, List.length_cons] at hskip
        exact ih _ (by omega) (by omega) hkeyed hitems rfl
      · contradiction

/-- The value of a member is read from a text that is shorter by the name and the colon at least. -/
theorem keyed_member {length : Nat} (hvalue : KeyedBelow standIn length) {text : List Char}
    (hlength : text.length < length) {parsed : Parsed (String × Json) text}
    (hmember : member standIn text = .ok parsed) : parsed.value.2.Keyed := by
  rw [member.eq_def] at hmember
  split at hmember
  · split at hmember
    · contradiction
    · next name hname =>
      have hshorter := name.shorter
      have hskip := length_skip_le name.rest
      simp only at hmember
      split at hmember
      · next after hafter =>
        have hless := length_skip_le after
        rw [hafter, List.length_cons] at hskip
        split at hmember
        · contradiction
        · next item hitem =>
          cases hmember
          exact hvalue _ (by omega) item hitem
      · contradiction
  · contradiction

/-- The same goes for members. Names may come again in the text; `Json.ofMembers` sees to them when
the closing brace is reached. -/
theorem keyed_members {length : Nat} (hvalue : KeyedBelow standIn length) {opening : List Char}
    {done : List (String × Json)} {text : List Char} {h : text.length < opening.length}
    (hlength : text.length < length) (hdone : ∀ member ∈ done, member.2.Keyed)
    {parsed : Parsed Json opening} (hmembers : members standIn opening done text h = .ok parsed) :
    parsed.value.Keyed := by
  induction hn : text.length using Nat.strongRecOn generalizing done text with
  | ind n ih =>
    rw [members] at hmembers
    split at hmembers
    · contradiction
    · next read hread =>
      have hkeyed : ∀ m ∈ read.value :: done, m.2.Keyed :=
        List.forall_mem_cons.2 ⟨keyed_member hvalue hlength hread, hdone⟩
      have hshorter := read.shorter
      have hskip := length_skip_le read.rest
      simp only at hmembers
      split at hmembers
      · cases hmembers
        exact keyed_ofMembers fun m hm ↦ hkeyed m (List.mem_reverse.1 hm)
      · next after hafter =>
        have hless := length_skip_le after
        rw [hafter, List.length_cons] at hskip
        exact ih _ (by omega) (by omega) hkeyed hmembers rfl
      · contradiction

/-- Whatever is read from a text is keyed if it is for the texts that are shorter. The bound on the
length carries the induction, since a reader calls itself only on what is left behind a character.
-/
theorem keyedBelow (standIn : Char) (length : Nat) : KeyedBelow standIn length := by
  -- texts that are shorter are done; the cases of a step are those of the first character
  induction length with
  | zero => exact fun text h ↦ absurd h (Nat.not_lt_zero _)
  | succ length ih =>
    intro text hlength parsed hvalue
    rw [value.eq_def] at hvalue
    split at hvalue
    · next rest =>
      simp only [bind, Except.bind, pure, Except.pure] at hvalue
      split at hvalue
      · contradiction
      · cases hvalue
        exact .string _
    · next rest =>
      have hskip := length_skip_le rest
      rw [List.length_cons] at hlength
      simp only at hvalue
      split at hvalue
      · cases hvalue
        exact .array (List.forall_mem_nil _)
      · exact keyed_items ih (by omega) (List.forall_mem_nil _) hvalue
    · next rest =>
      have hskip := length_skip_le rest
      rw [List.length_cons] at hlength
      simp only at hvalue
      split at hvalue
      · cases hvalue
        exact .object List.nodup_nil (List.forall_mem_nil _)
      · exact keyed_members ih (by omega) (List.forall_mem_nil _) hvalue
    · exact keyed_scalar hvalue

end Reader

/-- No object has a name twice in a value that a text spells. -/
theorem keyed_of_parse {text : List Char} {value : Json} (h : parse text = .ok value) :
    value.Keyed := by
  rw [parse, parseWith] at h
  split at h
  · next found hdocument =>
    cases h
    simp only [Reader.document, bind, Except.bind, pure, Except.pure] at hdocument
    split at hdocument
    · contradiction
    · split at hdocument
      · contradiction
      · next parsed hparsed =>
        split at hdocument
        · cases hdocument
          exact Reader.keyedBelow _ _ _ (Nat.lt_succ_self _) parsed hparsed
        · contradiction
  · contradiction
  · contradiction

end JsonShapes.Json

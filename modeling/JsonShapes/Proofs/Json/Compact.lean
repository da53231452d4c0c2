import JsonShapes.Json.Writer
import JsonShapes.Proofs.Json.Keyed
import JsonShapes.Proofs.Text.Quoted

/-!
# Compact texts are read in one way

A value of strings, whole numbers, booleans, null and arrays of such values can be recovered from
its compact text (`compact_inj`). Every such value ends where its text says: if two texts begin with
a value each and are the same, so are the two values, and what follows them. Only a number does not
mark its own end, but what may follow a value is the end of the text, a comma or a bracket, and none
of these belongs to a number.

The proof compares two texts from the front. Their first characters tell what kind of value each
begins with (`exists_opens_of_write_eq`), and for each kind there is one way to go on: a word is
known by its first letter, a string by the quote that closes it, a number by the first character
that belongs to none, and an array by its items, one after another (`writeItems_inj`).

Objects and numbers with a fraction are left out. No encoding has any, and the notation of a number
with a fraction depends on its shortest decimal, which would have to be read back here.
-/

namespace JsonShapes.Json

/-- The values without objects and without numbers that have a fraction or an exponent. -/
inductive Plain : Json → Prop
  | null : Plain .null
  | bool (b : Bool) : Plain (.bool b)
  | int (n : Int) : Plain (.number (.int n))
  | string (s : String) : Plain (.string s)
  | array {items : List Json} (items_plain : ∀ item ∈ items, Plain item) : Plain (.array items)

/-- What may follow a value in a text: nothing, a comma, or the bracket after the last item. -/
inductive Follows : List Char → Prop
  | nothing : Follows []
  | comma (rest : List Char) : Follows (',' :: rest)
  | bracket (rest : List Char) : Follows (']' :: rest)

/-! ### How a text begins -/

/-- Whether the text of a value may begin with a character. -/
def Opens : Json → Char → Prop
  | .null, c => c = 'n'
  | .bool true, c => c = 't'
  | .bool false, c => c = 'f'
  | .number _, c => c = '-' ∨ c.isDigit = true
  | .string _, c => c = '"'
  | .array _, c => c = '['
  | .object _, c => c = '{'

/-- The text of a whole number by its sign, in the form in which its digits can be counted off. -/
theorem number_write_int (n : Int) : (Number.int n).write =
    match n with
    | .ofNat m => Nat.toDigits 10 m
    | .negSucc m => '-' :: Nat.toDigits 10 (m + 1) := by
  cases n with
  | ofNat m => exact Nat.toList_repr
  | negSucc m =>
    show ("-" ++ Nat.repr (m + 1)).toList = _
    rw [String.toList_append, Nat.toList_repr]
    rfl

/-- A whole number is written with digits and a sign in front of negative ones. -/
theorem mem_write_int {n : Int} {c : Char} (h : c ∈ (Number.int n).write) :
    c = '-' ∨ c.isDigit = true := by
  rw [number_write_int] at h
  have hdigits : ∀ {m : Nat}, c ∈ Nat.toDigits 10 m → c.isDigit = true :=
    fun hc ↦ Nat.isDigit_of_mem_toDigits (by decide) (by decide) hc
  cases n with
  | ofNat m => exact Or.inr (hdigits h)
  | negSucc m => exact (List.mem_cons.1 h).imp_right hdigits

/-- No number is written as nothing. -/
theorem write_int_ne_nil (n : Int) : (Number.int n).write ≠ [] := by
  rw [number_write_int]
  cases n with
  | ofNat m => exact Nat.toDigits_ne_nil
  | negSucc m => exact List.cons_ne_nil _ _

/-- Whole numbers are told apart by their texts: by the sign, and then by the digits. -/
theorem write_int_inj {m n : Int} (h : (Number.int m).write = (Number.int n).write) : m = n := by
  have hdigits : ∀ {a b : Nat}, Nat.toDigits 10 a = Nat.toDigits 10 b → a = b := by
    intro a b hab
    rw [← Nat.ofDigitChars_ten_toDigits (n := a), hab, Nat.ofDigitChars_ten_toDigits]
  have hsign : ∀ {a b : Nat}, Nat.toDigits 10 a ≠ '-' :: Nat.toDigits 10 b := by
    intro a b hab
    have hmem : '-' ∈ Nat.toDigits 10 a := hab ▸ List.mem_cons_self
    exact absurd (Nat.isDigit_of_mem_toDigits (by decide) (by decide) hmem) (by decide)
  rw [number_write_int, number_write_int] at h
  cases m with
  | ofNat a =>
    cases n with
    | ofNat b => rw [hdigits h]
    | negSucc b => exact absurd h hsign
  | negSucc a =>
    cases n with
    | ofNat b => exact absurd h.symm hsign
    | negSucc b => rw [Nat.succ_inj.1 (hdigits (List.cons.inj h).2)]

/-- A value is written with a character in front that its kind allows, whatever follows it. -/
theorem exists_opens {v : Json} (hv : v.Plain) (r : List Char) :
    ∃ c rest, v.write r = c :: rest ∧ v.Opens c := by
  cases hv with
  | null => exact ⟨_, _, rfl, rfl⟩
  | bool b => cases b <;> exact ⟨_, _, rfl, rfl⟩
  | int n =>
    obtain ⟨c, rest, h⟩ := List.exists_cons_of_ne_nil (write_int_ne_nil n)
    refine ⟨c, rest ++ r, ?_, mem_write_int (n := n) (h ▸ List.mem_cons_self)⟩
    rw [write, h, List.cons_append]
  | string s =>
    refine ⟨'"', (s.toList.flatMap Quoted.escape ++ ['"']) ++ r, ?_, rfl⟩
    rw [write, writeString, Quoted.toList_quote, List.cons_append]
  | array => exact ⟨_, _, rfl, rfl⟩

/-- Values that are written alike begin with one and the same character. For different kinds there
is no such character, which rules out all mixed cases. -/
theorem exists_opens_of_write_eq {v w : Json} (hv : v.Plain) (hw : w.Plain) {r r' : List Char}
    (h : v.write r = w.write r') : ∃ c, v.Opens c ∧ w.Opens c := by
  obtain ⟨c, rest, hvr, hvc⟩ := exists_opens hv r
  obtain ⟨d, rest', hwr, hwd⟩ := exists_opens hw r'
  rw [hvr, hwr] at h
  exact ⟨c, hvc, (List.cons.inj h).1 ▸ hwd⟩

/-- No value begins as an array ends, so an empty array is told from one with items. -/
theorem not_opens_bracket (v : Json) : ¬v.Opens ']' := by
  cases v with
  | bool b => cases b <;> simp [Opens]
  | _ => simp [Opens]

/-! ### Unique reading -/

/-- What follows a value cannot continue a number, so a number is all that is taken off the front.
-/
theorem takeWhile_write_int (n : Int) {r : List Char} (hr : Follows r) :
    ((Number.int n).write ++ r).takeWhile (fun c ↦ c == '-' || c.isDigit) =
      (Number.int n).write := by
  have hstop : r.takeWhile (fun c ↦ c == '-' || c.isDigit) = [] := by
    cases hr <;> rfl
  rw [List.takeWhile_append_of_pos, hstop, List.append_nil]
  intro c hc
  simpa using mem_write_int hc

/-- What follows an item of an array: the bracket, or a comma and the further items. -/
def afterItem (r : List Char) : List Json → List Char
  | [] => ']' :: r
  | more => ',' :: writeItems r more

theorem writeItems_cons (r : List Char) (item : Json) (more : List Json) :
    writeItems r (item :: more) = item.write (afterItem r more) := by
  cases more <;> rfl

/-- What comes after an item is what may follow any value. -/
theorem follows_afterItem (r : List Char) (more : List Json) : Follows (afterItem r more) := by
  cases more with
  | nil => exact .bracket r
  | cons => exact .comma _

/-- Items are read in one way if each of them is. -/
theorem writeItems_inj {items items' : List Json} {r r' : List Char}
    (ih : ∀ item ∈ items, ∀ w : Json, w.Plain → ∀ r r', Follows r → Follows r' →
      item.write r = w.write r' → item = w ∧ r = r')
    (hitems : ∀ item ∈ items, item.Plain) (hitems' : ∀ item ∈ items', item.Plain)
    (h : writeItems r items = writeItems r' items') : items = items' ∧ r = r' := by
  -- no item begins with the bracket that ends an array
  have hempty : ∀ {item : Json} {more : List Json} {r r' : List Char}, item.Plain →
      ']' :: r' ≠ writeItems r (item :: more) := by
    intro item more r r' hitem h
    obtain ⟨c, rest, hc, hopens⟩ := exists_opens hitem (afterItem r more)
    rw [writeItems_cons, hc] at h
    rw [← (List.cons.inj h).1] at hopens
    exact not_opens_bracket item hopens
  induction items generalizing items' with
  | nil =>
    cases items' with
    | nil => exact ⟨rfl, (List.cons.inj h).2⟩
    | cons item' more' => exact absurd h (hempty (hitems' item' List.mem_cons_self))
  | cons item more ihmore =>
    cases items' with
    | nil => exact absurd h.symm (hempty (hitems item List.mem_cons_self))
    | cons item' more' =>
      rw [writeItems_cons, writeItems_cons] at h
      -- the first items agree, and so does what comes after them
      obtain ⟨rfl, hafter⟩ := ih item List.mem_cons_self item' (hitems' item' List.mem_cons_self)
        _ _ (follows_afterItem r more) (follows_afterItem r' more') h
      cases more with
      | nil =>
        cases more' with
        | nil => exact ⟨rfl, (List.cons.inj hafter).2⟩
        | cons => exact absurd (List.cons.inj hafter).1 (by decide)
      | cons k more =>
        cases more' with
        | nil => exact absurd (List.cons.inj hafter).1 (by decide)
        | cons k' more' =>
          obtain ⟨hmore, hr⟩ := ihmore (fun i hi ↦ ih i (List.mem_cons_of_mem _ hi))
            (fun i hi ↦ hitems i (List.mem_cons_of_mem _ hi))
            (fun i hi ↦ hitems' i (List.mem_cons_of_mem _ hi)) (List.cons.inj hafter).2
          exact ⟨by rw [hmore], hr⟩

/-- Of two texts that begin with a value, the values and what follows them are the same. -/
theorem write_inj {v w : Json} (hv : v.Plain) (hw : w.Plain) {r r' : List Char} (hr : Follows r)
    (hr' : Follows r') (h : v.write r = w.write r') : v = w ∧ r = r' := by
  -- values of different kinds do not even begin alike, which leaves one case for each kind
  obtain ⟨c, hvc, hwc⟩ := exists_opens_of_write_eq hv hw h
  induction hv generalizing w r r' c with
  | null =>
    cases hw with
    | null => exact ⟨rfl, List.append_cancel_left h⟩
    | bool b => cases b <;> simp_all [Opens]
    | _ => simp_all [Opens, Char.isDigit]
  | bool b =>
    cases hw with
    | bool b' =>
      cases b <;> cases b' <;> simp_all [Opens]
      · exact List.append_cancel_left h
      · exact List.append_cancel_left h
    | _ => cases b <;> simp_all [Opens, Char.isDigit]
  | int n =>
    cases hw with
    | int m =>
      rw [write, write] at h
      -- a number ends where something follows that cannot belong to it
      have hwrite : (Number.int n).write = (Number.int m).write := by
        rw [← takeWhile_write_int n hr, h, takeWhile_write_int m hr']
      rw [hwrite] at h
      exact ⟨by rw [write_int_inj hwrite], List.append_cancel_left h⟩
    | bool b => cases b <;> simp_all [Opens, Char.isDigit]
    | _ => simp_all [Opens, Char.isDigit]
  | string s =>
    cases hw with
    | string t =>
      obtain ⟨rfl, hrest⟩ := Quoted.quote_append_inj h
      exact ⟨rfl, hrest⟩
    | bool b => cases b <;> simp_all [Opens]
    | _ => simp_all [Opens, Char.isDigit]
  | @array items hitems ih =>
    cases hw with
    | @array items' hitems' =>
      have hread : ∀ item ∈ items, ∀ w : Json, w.Plain → ∀ r r', Follows r → Follows r' →
          item.write r = w.write r' → item = w ∧ r = r' := by
        intro item hitem w hw r r' hr hr' h
        obtain ⟨c, hvc, hwc⟩ := exists_opens_of_write_eq (hitems item hitem) hw h
        exact ih item hitem hw hr hr' h c hvc hwc
      obtain ⟨rfl, hrest⟩ := writeItems_inj hread hitems hitems' (List.cons.inj h).2
      exact ⟨rfl, hrest⟩
    | bool b => cases b <;> simp_all [Opens]
    | _ => simp_all [Opens, Char.isDigit]

/-- The compact text of a value determines the value. -/
theorem compact_inj {v w : Json} (hv : v.Plain) (hw : w.Plain) (h : v.compact = w.compact) :
    v = w :=
  (write_inj hv hw .nothing .nothing (String.ofList_injective h)).1

end JsonShapes.Json

import JsonShapes.Proofs.Emit.PropertyKeys
import JsonShapes.Shape.Basic

/-!
# Where the parts of a text end

The text of a shape is put together from words, property names, pairs of brackets and texts with
separators between them. Of each it is said here that it can be told from what stands behind it, if
that cannot belong to it: where two texts begin with such parts, the parts are the same and so are
the rests.

What may stand behind a part is part of each statement (`Follows` for texts of shapes, an end of its
own for each kind of list), because it is what the next larger part has to provide. Brackets are the
one thing that can stand behind a text and belong to it, so they are counted (`brackets`).

## Main results

* `run_append_inj`: two runs of characters of one kind, each ended by a character of another kind.
* `brackets_inj`: pairs of brackets, ended by anything but a bracket.
* `forall₂_of_intercalate`: lists of texts with separators between them, if each text can be told
  from what is behind it.
* `Identifier.property_append_inj`: keys of properties, in front of a colon or a question mark. A
  bare key is never an initial part of a quoted one, as it has no quote in it.
-/

namespace JsonShapes

/-! ### Words -/

/-- Whether a character may stand in the name of a primitive shape or in an alias. -/
def inWord (c : Char) : Bool :=
  Identifier.continues c || c = '-'

/-- Of two texts that begin with a run of characters of a kind, the runs and the rests are the same.
-/
theorem run_append_inj {p : Char → Bool} {l l' rest rest' : List Char} (hl : ∀ c ∈ l, p c = true)
    (hl' : ∀ c ∈ l', p c = true) (hrest : ∀ c ∈ rest.head?, p c = false)
    (hrest' : ∀ c ∈ rest'.head?, p c = false) (h : l ++ rest = l' ++ rest') :
    l = l' ∧ rest = rest' := by
  have hstop : ∀ {r : List Char}, (∀ c ∈ r.head?, p c = false) → r.takeWhile p = [] := by
    intro r hr
    cases r with
    | nil => rfl
    | cons c r => rw [List.takeWhile_cons_of_neg (Bool.eq_false_iff.1 (hr c rfl))]
  have hrun := congrArg (List.takeWhile p) h
  rw [List.takeWhile_append_of_pos hl, List.takeWhile_append_of_pos hl', hstop hrest,
    hstop hrest', List.append_nil, List.append_nil] at hrun
  exact ⟨hrun, List.append_cancel_left (hrun ▸ h)⟩

theorem Primitive.inWord_of_mem_name (p : Primitive) : ∀ c ∈ p.name.toList, inWord c = true := by
  have hall : p.name.toList.all inWord = true := by cases p <;> rfl
  exact List.all_eq_true.1 hall

theorem Primitive.name_injective : Function.Injective Primitive.name := by
  intro p q h
  cases p <;> cases q <;> first | rfl | exact absurd h (by decide)

/-- A number is a word, its sign included. -/
theorem inWord_of_mem_toString (n : Int) : ∀ c ∈ (toString n).toList, inWord c = true := by
  have hnat (m : Nat) : ∀ c ∈ (Nat.repr m).toList, inWord c = true := fun c hc ↦ by
    rw [inWord, Identifier.continues_iff.2 (.inr (isDigit_of_mem_repr hc)), Bool.true_or]
  cases n with
  | ofNat m => exact hnat m
  | negSucc m =>
    have htext : (toString (Int.negSucc m)).toList = '-' :: (Nat.repr (m + 1)).toList :=
      String.toList_append (s := "-")
    exact htext ▸ List.forall_mem_cons.2 ⟨rfl, hnat (m + 1)⟩

/-! ### What follows a text -/

/-- What may follow the text of a shape that is no union: nothing that could belong to it. -/
def Follows (rest : List Char) : Prop :=
  ∀ c ∈ rest.head?, inWord c = false ∧ c ≠ '['

/-- What may follow the text of any shape: not another member of a union either. -/
def Ends (rest : List Char) : Prop :=
  Follows rest ∧ ¬[' ', '|', ' '] <+: rest

theorem follows_nil : Follows [] := nofun

/-- What follows begins with a character that continues no word and opens no bracket. -/
theorem follows_cons {c : Char} {rest : List Char} :
    Follows (c :: rest) ↔ inWord c = false ∧ c ≠ '[' := by
  simp [Follows]

/-- A text with so many pairs of brackets before it. -/
def brackets : Nat → List Char → List Char
  | 0, rest => rest
  | levels + 1, rest => '[' :: ']' :: brackets levels rest

/-- Pairs of brackets are put one behind another. -/
theorem brackets_add (k l : Nat) (rest : List Char) :
    brackets (k + l) rest = brackets k (brackets l rest) := by
  induction k with
  | zero => rw [Nat.zero_add, brackets]
  | succ k ih => rw [Nat.succ_add, brackets, brackets, ih]

/-- Pairs of brackets can be counted, as what follows begins with no bracket. -/
theorem brackets_inj {k l : Nat} {rest rest' : List Char} (hrest : Follows rest)
    (hrest' : Follows rest') (h : brackets k rest = brackets l rest') : k = l ∧ rest = rest' := by
  have hstart : ∀ {l : Nat} {rest rest' : List Char}, Follows rest →
      rest ≠ brackets (l + 1) rest' := by
    rintro l rest rest' hrest rfl
    exact (hrest '[' rfl).2 rfl
  induction k generalizing l with
  | zero =>
    cases l with
    | zero => exact ⟨rfl, h⟩
    | succ l => exact absurd h (hstart hrest)
  | succ k ih =>
    cases l with
    | zero => exact absurd h.symm (hstart hrest')
    | succ l =>
      obtain ⟨hkl, hrests⟩ := ih (List.cons.inj (List.cons.inj h).2).2
      exact ⟨congrArg (· + 1) hkl, hrests⟩

/-- No character of a word follows one, brackets or not. -/
theorem not_inWord_of_mem_head_brackets {k : Nat} {rest : List Char} (hrest : Follows rest) :
    ∀ c ∈ (brackets k rest).head?, inWord c = false := by
  cases k with
  | zero => exact fun c hc ↦ (hrest c hc).1
  | succ k => simp [brackets, inWord, Identifier.continues]

/-! ### Texts with separators between them -/

/-- What comes behind a text, if more texts and then a rest do, with separators between them. -/
def behind (separator : String) : List String → List Char → List Char
  | [], rest => rest
  | texts, rest => separator.toList ++ ((separator.intercalate texts).toList ++ rest)

/-- Behind the first of several texts stands what `behind` says. -/
theorem intercalate_cons_append (separator text : String) (texts : List String)
    (rest : List Char) : (separator.intercalate (text :: texts)).toList ++ rest =
      text.toList ++ behind separator texts rest := by
  cases texts with
  | nil => rw [String.intercalate_singleton, behind]
  | cons next texts =>
    rw [String.intercalate_cons_cons, String.toList_append, String.toList_append,
      List.append_assoc, List.append_assoc, behind]
    exact nofun

section Separated

variable {α β : Type} {R : α → β → Prop} {write : α → String} {write' : β → String}
  {separator : String} {After End : List Char → Prop} {as : List α} {bs : List β}

/-- Texts with separators between them are the same one by one, if a text can be told from what
comes behind it and a separator from what comes behind all of them. -/
theorem forall₂_of_intercalate (hend : ∀ r, End r → After r)
    (hseparator : ∀ r, After (separator.toList ++ r)) (hother : ∀ r, ¬End (separator.toList ++ r))
    (hitem : ∀ a ∈ as, ∀ b ∈ bs, ∀ {r r'}, After r → After r' →
      (write a).toList ++ r = (write' b).toList ++ r' → R a b ∧ r = r')
    (has : as ≠ []) (hbs : bs ≠ []) {rest rest' : List Char} (hrest : End rest)
    (hrest' : End rest')
    (h : (separator.intercalate (as.map write)).toList ++ rest =
      (separator.intercalate (bs.map write')).toList ++ rest') :
    List.Forall₂ R as bs ∧ rest = rest' := by
  -- behind an item there is the separator or the end, and an item stops at either
  have hafter : ∀ {r : List Char}, End r → ∀ texts : List String,
      After (behind separator texts r) := by
    intro r hr texts
    cases texts with
    | nil => exact hend r hr
    | cons => exact hseparator _
  induction as generalizing bs with
  | nil => exact absurd rfl has
  | cons a as ih =>
    cases bs with
    | nil => exact absurd rfl hbs
    | cons b bs =>
      rw [List.map_cons, List.map_cons, intercalate_cons_append, intercalate_cons_append] at h
      obtain ⟨hab, hbehind⟩ := hitem a List.mem_cons_self b List.mem_cons_self (hafter hrest _)
        (hafter hrest' _) h
      cases as with
      | nil =>
        cases bs with
        | nil => exact ⟨.cons hab .nil, hbehind⟩
        | cons b' bs =>
          -- one list ends where the other goes on, which the end cannot be taken for
          have hmore : rest = separator.toList ++ _ := hbehind
          exact absurd (hmore ▸ hrest) (hother _)
      | cons a' as =>
        cases bs with
        | nil =>
          have hmore : rest' = separator.toList ++ _ := hbehind.symm
          exact absurd (hmore ▸ hrest') (hother _)
        | cons b' bs =>
          obtain ⟨hforall, hrests⟩ := ih (fun a ha b hb ↦ hitem a (List.mem_cons_of_mem _ ha) b
            (List.mem_cons_of_mem _ hb)) (List.cons_ne_nil _ _) (List.cons_ne_nil _ _)
            (List.append_cancel_left hbehind)
          exact ⟨.cons hab hforall, hrests⟩

end Separated

/-! ### Property names -/

namespace Identifier

/-- A key without quotes is made of characters of identifiers, with perhaps a line feed at its end.
-/
theorem continues_of_isBare {name : String} (h : isBare name = true) :
    ∀ c ∈ name.toList, (continues c || c = '\n') = true := by
  rcases isBare_iff.1 h with hidentifier | ⟨identifier, hidentifier, rfl⟩
  · intro c hc
    rw [continues_of_isIdentifier hidentifier c hc, Bool.true_or]
  · rw [String.toList_append, List.forall_mem_append]
    refine ⟨fun c hc ↦ ?_, List.forall_mem_singleton (a := '\n').2 rfl⟩
    rw [continues_of_isIdentifier hidentifier c hc, Bool.true_or]

/-- A property name that is written bare does not look like one in quotes. -/
theorem property_append_ne {m n : String} (hm : isBare m = true) (hn : ¬isBare n = true)
    {c : Char} (hc : c ≠ '"') (r r' : List Char) :
    (property m).toList ++ c :: r ≠ (property n).toList ++ r' := by
  rw [property, if_pos hm, property, if_neg hn, Quoted.quoteWith, String.toList_ofList]
  intro h
  cases hchars : m.toList with
  | nil =>
    rw [hchars] at h
    exact hc (List.cons.inj h).1
  | cons d rest =>
    have hd := continues_of_isBare hm d (hchars ▸ List.mem_cons_self)
    rw [hchars] at h
    rw [(List.cons.inj h).1] at hd
    exact absurd hd (by decide)

/-- Of two texts that begin with a property name and a mark, the names are the same, and so are the
texts from the marks on. -/
theorem property_append_inj {m n : String} {c d : Char} (hc : c = '?' ∨ c = ':')
    (hd : d = '?' ∨ d = ':') {r r' : List Char}
    (h : (property m).toList ++ c :: r = (property n).toList ++ d :: r') :
    m = n ∧ c :: r = d :: r' := by
  have hquote : ∀ {c : Char}, c = '?' ∨ c = ':' → c ≠ '"' := by
    rintro c (rfl | rfl) <;> decide
  have hmark : ∀ {c : Char} {r : List Char}, c = '?' ∨ c = ':' →
      ∀ e ∈ (c :: r).head?, (continues e || e = '\n') = false := by
    rintro c r hc e he
    obtain rfl : c = e := Option.some.inj he
    rcases hc with rfl | rfl <;> decide
  by_cases hm : isBare m = true <;> by_cases hn : isBare n = true
  · rw [property, if_pos hm, property, if_pos hn] at h
    obtain ⟨hnames, hrest⟩ := run_append_inj (continues_of_isBare hm) (continues_of_isBare hn)
      (hmark hc) (hmark hd) h
    exact ⟨String.toList_injective hnames, hrest⟩
  · exact absurd h (property_append_ne hm hn (hquote hc) _ _)
  · exact absurd h.symm (property_append_ne hn hm (hquote hd) _ _)
  · rw [property, if_neg hm, property, if_neg hn, Quoted.quoteWith, Quoted.quoteWith,
      String.toList_ofList, String.toList_ofList, List.cons_append, List.cons_append,
      List.append_assoc, List.append_assoc] at h
    obtain ⟨hnames, hrest⟩ := Json.flatMap_write_inj writes_escapeProperty (List.cons.inj h).2
    exact ⟨String.toList_injective hnames, hrest⟩

end Identifier

end JsonShapes

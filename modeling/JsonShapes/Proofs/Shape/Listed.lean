import JsonShapes.Proofs.Shape.JoinParts

/-!
# Shapes that list their fields

What a join needs of its operands is little: that each object lists the names of its fields, as
often as it has them, and that nothing in them is no shape (`Shape.Listed`). The members of a union
may be any, several objects, several arrays, unions again, or just one.

A join of such shapes is one again and is no deeper than they are (`shallow_join`). The two are
proved together, layer by layer: the layer below is only asked to join what has fewer layers, and of
an operand that is itself a join nothing but this proof says how many it has. By the same proof the
number of layers by which a join is bounded is never reached, so a join is one layer over joins
(`join_eq_joinLayer`).

`Shallow n` bounds the layers of a shape and says of each that it lists its fields, in one
predicate, with a lemma for each constructor (`shallow_array`, `shallow_object`, `shallow_union`).
Each function that makes up a layer of a join then gets two lemmas: it stays within the bound, and
it does not depend on what is joined below except through shapes within a smaller one.

## What comes of it

* The guarded join, which refuses what it cannot handle, refuses none of these shapes.
* Joining ends without a bound, as no layer below the ones that the operands have is ever joined.
* The equation `join_eq_joinLayer` describes a join by itself, with no number of layers in it, and
  is what is used of `join` where its definition would have to be opened otherwise.
-/

namespace JsonShapes.Shape

variable {policy : Policy} {part : Shape → Shape → Shape} {s t : Shape} {m n : Nat}

/-- The shapes whose objects list the names of their fields and which have nothing in them that is
no shape. -/
inductive Listed : Shape → Prop
  | prim (p : Primitive) : Listed (.prim p)
  | emptyArray : Listed .emptyArray
  | array {e : Shape} (element : Listed e) : Listed (.array e)
  | object {fs : List (Field Shape)} {order : List String}
      (listed : order.Perm (fs.map (·.name))) (contents : ∀ f ∈ fs, Listed f.content) :
      Listed (.object fs order)
  | union {ms : List Shape} (members : ∀ m ∈ ms, Listed m) : Listed (.union ms)
  | ref (id : Int) : Listed (.ref id)

/-- Well-formed shapes list their fields. -/
theorem WellFormed.listed (h : s.WellFormed) : s.Listed := by
  induction h with
  | prim p => exact .prim p
  | emptyArray => exact .emptyArray
  | array _ ih => exact .array ih
  | object _ hlisted _ ih => exact .object hlisted ih
  | union _ _ _ ih => exact .union ih
  | ref id => exact .ref id

/-- Nothing in a listed shape is no shape. -/
theorem Listed.foreigns_eq_nil (h : s.Listed) : s.foreigns = [] := by
  induction h with
  | array _ ih => exact ih
  | object _ _ ih => exact foreignsOfFields_eq_nil_iff.2 ih
  | union _ ih => exact foreignsOfAll_eq_nil_iff.2 ih
  | _ => rfl

/-- The listed shapes of fewer than `n` layers. -/
structure Shallow (n : Nat) (s : Shape) : Prop where
  listed : s.Listed
  depth_lt : s.depth < n

theorem Listed.shallow (h : s.Listed) (hd : s.depth ≤ n) : s.Shallow (n + 1) :=
  ⟨h, Nat.lt_succ_of_le hd⟩

theorem Shallow.mono (h : s.Shallow m) (hmn : m ≤ n) : s.Shallow n :=
  ⟨h.listed, h.depth_lt.trans_le hmn⟩

@[simp]
theorem not_shallow_zero (s : Shape) : ¬s.Shallow 0 :=
  fun h ↦ Nat.not_lt_zero _ h.depth_lt

@[simp]
theorem shallow_prim (p : Primitive) : (prim p).Shallow (n + 1) :=
  ⟨.prim p, Nat.succ_pos n⟩

@[simp]
theorem shallow_emptyArray : emptyArray.Shallow (n + 1) :=
  ⟨.emptyArray, Nat.succ_pos n⟩

/-- An array is a layer around its element. -/
theorem shallow_array {e : Shape} : (array e).Shallow (n + 1) ↔ e.Shallow n := by
  constructor
  · rintro ⟨hlisted, hdepth⟩
    cases hlisted with
    | array he => exact ⟨he, Nat.lt_of_succ_lt_succ hdepth⟩
  · exact fun h ↦ ⟨.array h.listed, Nat.succ_lt_succ h.depth_lt⟩

/-- An object lists its fields, whose contents are a layer lower. -/
theorem shallow_object {fs : List (Field Shape)} {order : List String} :
    (object fs order).Shallow (n + 1) ↔
      0 < n ∧ order.Perm (fs.map (·.name)) ∧ ∀ f ∈ fs, f.content.Shallow n := by
  cases n with
  | zero => simpa using fun h : (object fs order).Shallow 1 ↦ absurd h.depth_lt (by simp [depth])
  | succ n =>
    have hdepth : (object fs order).depth < n + 2 ↔ ∀ f ∈ fs, f.content.depth < n + 1 := by
      simp only [depth, Nat.lt_succ_iff, Nat.add_le_add_iff_right, depthOfFields_le_iff]
    constructor
    · rintro ⟨hlisted, hlt⟩
      cases hlisted with
      | object hperm hcontents =>
        exact ⟨n.succ_pos, hperm, fun f hf ↦ ⟨hcontents f hf, hdepth.1 hlt f hf⟩⟩
    · rintro ⟨-, hperm, hcontents⟩
      exact ⟨.object hperm fun f hf ↦ (hcontents f hf).listed,
        hdepth.2 fun f hf ↦ (hcontents f hf).depth_lt⟩

/-- A union is no layer of its own: its members are as deep as it is. -/
theorem shallow_union {ms : List Shape} :
    (union ms).Shallow (n + 1) ↔ ∀ m ∈ ms, m.Shallow (n + 1) := by
  have hdepth : (union ms).depth < n + 1 ↔ ∀ m ∈ ms, m.depth < n + 1 := by
    simp only [depth, Nat.lt_succ_iff, depthOfAll_le_iff]
  constructor
  · rintro ⟨hlisted, hlt⟩
    cases hlisted with
    | union hmembers => exact fun m hm ↦ ⟨hmembers m hm, hdepth.1 hlt m hm⟩
  · exact fun h ↦ ⟨.union fun m hm ↦ (h m hm).listed, hdepth.2 fun m hm ↦ (h m hm).depth_lt⟩

/-- So a shape has as many layers as its alternatives. -/
theorem shallow_iff_alternatives : s.Shallow (n + 1) ↔ ∀ m ∈ s.alternatives, m.Shallow (n + 1) := by
  cases s with
  | union ms => exact shallow_union
  | _ => simp [alternatives]

/-- What is made of alternatives has no more layers than they do. -/
theorem shallow_ofAlternatives {ms : List Shape} (h : ∀ m ∈ ms, m.Shallow (n + 1)) :
    (ofAlternatives ms).Shallow (n + 1) := by
  match ms with
  | [only] => exact h only List.mem_cons_self
  | [] => exact shallow_union.2 h
  | _ :: _ :: _ => exact shallow_union.2 h

/-- An object with fields made one for each name. -/
theorem shallow_ofFields {ks : List (Field Shape)} {names : List String} (hn : 0 < n)
    (hnames : ks.map (·.name) = names) (hks : ∀ k ∈ ks, k.content.Shallow n) :
    (ofFields ks names).Shallow (n + 1) := by
  rw [ofFields, hnames, ite_self]
  refine shallow_object.2 ⟨hn, ?_, fun k hk ↦ hks k ((Field.sorted_perm ks).mem_iff.1 hk)⟩
  exact hnames ▸ ((Field.sorted_perm ks).map _).symm

/-! ### One layer -/

section Layer

variable (hpart : ∀ x y, x.Shallow n → y.Shallow n → (part x y).Shallow n)

include hpart

/-- A joined field is within the bound of the layer below, as both sides are. -/
theorem shallow_joinField {name : String} {f? g? : Option (Field Shape)} {k : Field Shape}
    (hf : ∀ f ∈ f?, f.content.Shallow n) (hg : ∀ g ∈ g?, g.content.Shallow n)
    (h : joinField part name f? g? = some k) : k.content.Shallow n := by
  match f?, g?, h with
  | some f, some g, rfl => exact hpart _ _ (hf f rfl) (hg g rfl)
  | some f, none, rfl => exact hf f rfl
  | none, some g, rfl => exact hg g rfl

/-- Two objects are joined within their bound, and the joined object lists its fields: the names of
either side are those of its fields, and joined names are those of joined fields. -/
theorem shallow_joinObjects (hs : s.Shallow (n + 1)) (ht : t.Shallow (n + 1)) :
    (joinObjects part s t).Shallow (n + 1) := by
  cases s with
  | object fs order =>
    cases t with
    | object gs order' =>
      obtain ⟨hn, hlisted, hfs⟩ := shallow_object.1 hs
      obtain ⟨-, hlisted', hgs⟩ := shallow_object.1 ht
      rw [joinObjects_eq]
      refine shallow_ofFields hn (map_name_joinFields hlisted hlisted') fun k hk ↦ ?_
      obtain ⟨name, -, hk⟩ := List.mem_filterMap.1 (joinFields_eq .. ▸ hk)
      exact shallow_joinField hpart (fun f hf ↦ hfs f (Field.mem_of_get? hf))
        (fun g hg ↦ hgs g (Field.mem_of_get? hg)) hk
    | _ => exact hs
  | _ => exact hs

/-- Two arrays are joined within their bound. -/
theorem shallow_joinArrays (hs : s.Shallow (n + 1)) (ht : t.Shallow (n + 1)) :
    (joinArrays part s t).Shallow (n + 1) := by
  rw [joinArrays.eq_def]
  split
  · exact hs
  split
  · exact ht
  · exact shallow_array.2 (hpart _ _ (shallow_array.1 hs) (shallow_array.1 ht))
  · exact hs

/-- Any alternatives are joined within their bound, however many objects and arrays there are among
them. -/
theorem shallow_joinAlternatives {ms : List Shape} (h : ∀ m ∈ ms, m.Shallow (n + 1)) :
    (joinAlternatives part ms).Shallow (n + 1) := by
  have hfilter : ∀ {p : Shape → Bool}, ∀ m ∈ ms.filter p, m.Shallow (n + 1) :=
    fun m hm ↦ h m (List.mem_filter.1 hm).1
  rw [joinAlternatives_eq]
  refine shallow_ofAlternatives fun m hm ↦ ?_
  rcases List.mem_append.1 hm with hm | hm
  · rcases List.mem_append.1 hm with hm | hm
    · exact hfilter m (mem_of_mem_distinct hm)
    · exact of_mem_reduce? (fun _ _ ↦ shallow_joinObjects hpart) hfilter (Option.mem_toList.1 hm)
  · exact of_mem_reduce? (fun _ _ ↦ shallow_joinArrays hpart) hfilter (Option.mem_toList.1 hm)

/-- One layer of a join stays within the bound of its operands. -/
theorem shallow_joinLayer (hs : s.Shallow (n + 1)) (ht : t.Shallow (n + 1)) :
    (joinLayer part policy s t).Shallow (n + 1) := by
  rw [joinLayer.eq_def]
  split
  · exact hs
  split
  · exact shallow_prim _
  · exact shallow_prim _
  · exact ht
  · exact hs
  · exact shallow_array.2 (hpart _ _ (shallow_array.1 hs) (shallow_array.1 ht))
  · exact shallow_joinObjects hpart hs ht
  · cases policy with
    | unknown => exact shallow_prim _
    | union =>
      exact shallow_joinAlternatives hpart (List.forall_mem_append.2
        ⟨shallow_iff_alternatives.1 hs, shallow_iff_alternatives.1 ht⟩)

end Layer

/-! ### Joins -/

/-- By induction on the number of layers so does a join. -/
theorem shallow_joinWithin {d : Nat} (hs : s.Shallow (d + 1)) (ht : t.Shallow (d + 1)) :
    (joinWithin policy d s t).Shallow (d + 1) := by
  induction d generalizing s t with
  | zero => exact shallow_joinLayer (fun _ _ hx _ ↦ hx) hs ht
  | succ d ih => exact shallow_joinLayer (fun _ _ ↦ ih) hs ht

/-- Joining listed shapes makes a listed shape that has no more layers than the deeper of them. -/
theorem shallow_join (hs : s.Shallow n) (ht : t.Shallow n) : (s.join policy t).Shallow n := by
  have hjoin : (s.join policy t).Shallow (max s.depth t.depth + 1) :=
    shallow_joinWithin (hs.listed.shallow (Nat.le_max_left ..))
      (ht.listed.shallow (Nat.le_max_right ..))
  exact hjoin.mono (Nat.succ_le_of_lt (max_lt hs.depth_lt ht.depth_lt))

/-! ### The layers suffice -/

/-- Two ways of combining that agree on what all items have, which they keep, combine alike. -/
theorem reduce?_congr {α : Type} {P : α → Prop} {f g : α → α → α}
    (hf : ∀ a b, P a → P b → P (f a b)) (hfg : ∀ a b, P a → P b → f a b = g a b) {l : List α}
    (hl : ∀ a ∈ l, P a) : reduce? f l = reduce? g l := by
  cases l with
  | nil => rfl
  | cons a l =>
    obtain ⟨ha, hl⟩ := List.forall_mem_cons.1 hl
    rw [reduce?, reduce?, Option.some.injEq]
    induction l generalizing a with
    | nil => rfl
    | cons b l ih =>
      obtain ⟨hb, hl⟩ := List.forall_mem_cons.1 hl
      rw [List.foldl_cons, List.foldl_cons, ← hfg a b ha hb]
      exact ih (f a b) (List.forall_mem_cons.2 ⟨hf a b ha hb, hl⟩) (hf a b ha hb) hl

section Layer

variable {part' : Shape → Shape → Shape}
  (hpart : ∀ x y, x.Shallow n → y.Shallow n → (part x y).Shallow n)
  (heq : ∀ x y, x.Shallow n → y.Shallow n → part x y = part' x y)

include heq

/-- Joins that agree on what lies below join objects alike. -/
theorem joinObjects_congr (hs : s.Shallow (n + 1)) (ht : t.Shallow (n + 1)) :
    joinObjects part s t = joinObjects part' s t := by
  cases s with
  | object fs order =>
    cases t with
    | object gs order' =>
      obtain ⟨-, -, hfs⟩ := shallow_object.1 hs
      obtain ⟨-, -, hgs⟩ := shallow_object.1 ht
      have hfields : ∀ name, joinField part name (Field.get? fs name) (Field.get? gs name) =
          joinField part' name (Field.get? fs name) (Field.get? gs name) := by
        intro name
        cases hf : Field.get? fs name with
        | none => cases Field.get? gs name <;> rfl
        | some f =>
          cases hg : Field.get? gs name with
          | none => rfl
          | some g =>
            rw [joinField, joinField, heq f.content g.content (hfs f (Field.mem_of_get? hf))
              (hgs g (Field.mem_of_get? hg))]
      rw [joinObjects_eq, joinObjects_eq, joinFields_eq, joinFields_eq, funext hfields]
    | _ => rfl
  | _ => rfl

/-- They join arrays alike. -/
theorem joinArrays_congr (hs : s.Shallow (n + 1)) (ht : t.Shallow (n + 1)) :
    joinArrays part s t = joinArrays part' s t := by
  rw [joinArrays.eq_def, joinArrays.eq_def]
  split
  · rfl
  split
  · rfl
  · rw [heq _ _ (shallow_array.1 hs) (shallow_array.1 ht)]
  · rfl

include hpart

/-- And alternatives. Here operands are joins themselves, of which `hpart` says that they are within
the bound. -/
theorem joinAlternatives_congr {ms : List Shape} (h : ∀ m ∈ ms, m.Shallow (n + 1)) :
    joinAlternatives part ms = joinAlternatives part' ms := by
  have hfilter : ∀ {p : Shape → Bool}, ∀ m ∈ ms.filter p, m.Shallow (n + 1) :=
    fun m hm ↦ h m (List.mem_filter.1 hm).1
  rw [joinAlternatives_eq, joinAlternatives_eq,
    reduce?_congr (fun _ _ ↦ shallow_joinObjects hpart) (fun _ _ ↦ joinObjects_congr heq) hfilter,
    reduce?_congr (fun _ _ ↦ shallow_joinArrays hpart) (fun _ _ ↦ joinArrays_congr heq) hfilter]

/-- And so a layer is the same for both. -/
theorem joinLayer_congr (hs : s.Shallow (n + 1)) (ht : t.Shallow (n + 1)) :
    joinLayer part policy s t = joinLayer part' policy s t := by
  rw [joinLayer.eq_def, joinLayer.eq_def]
  split
  · rfl
  split <;> try rfl
  · rw [heq _ _ (shallow_array.1 hs) (shallow_array.1 ht)]
  · exact joinObjects_congr heq hs ht
  · cases policy with
    | unknown => rfl
    | union =>
      exact joinAlternatives_congr hpart heq (List.forall_mem_append.2
        ⟨shallow_iff_alternatives.1 hs, shallow_iff_alternatives.1 ht⟩)

end Layer

/-- One layer more makes no difference, if both shapes have fewer. -/
theorem joinWithin_succ {d : Nat} (hs : s.Shallow (d + 1)) (ht : t.Shallow (d + 1)) :
    joinWithin policy (d + 1) s t = joinWithin policy d s t := by
  symm
  induction d generalizing s t with
  | zero =>
    exact joinLayer_congr (fun _ _ hx _ ↦ hx) (fun x _ hx ↦ absurd hx (not_shallow_zero x)) hs ht
  | succ d ih => exact joinLayer_congr (fun _ _ ↦ shallow_joinWithin) (fun _ _ ↦ ih) hs ht

/-- Within a bound that the operands keep, the number of layers is never felt. -/
theorem joinWithin_eq_join {d : Nat} (hs : s.Shallow (d + 1)) (ht : t.Shallow (d + 1)) :
    joinWithin policy d s t = s.join policy t := by
  have hd : max s.depth t.depth ≤ d :=
    max_le (Nat.le_of_lt_succ hs.depth_lt) (Nat.le_of_lt_succ ht.depth_lt)
  have hle : ∀ {d}, max s.depth t.depth ≤ d → s.Shallow (d + 1) ∧ t.Shallow (d + 1) :=
    fun hd ↦ ⟨hs.listed.shallow ((Nat.le_max_left ..).trans hd),
      ht.listed.shallow ((Nat.le_max_right ..).trans hd)⟩
  induction d, hd using Nat.le_induction with
  | base => rfl
  | succ d hd ih =>
    obtain ⟨hs, ht⟩ := hle hd
    exact (joinWithin_succ hs ht).trans (ih hs ht)

/-- A join is one layer over joins: the bound on the number of layers does not show. -/
theorem join_eq_joinLayer (hs : s.Listed) (ht : t.Listed) :
    s.join policy t = joinLayer (join policy) policy s t := by
  set d := max s.depth t.depth with hd
  have hs' : s.Shallow (d + 1) := hs.shallow (Nat.le_max_left ..)
  have ht' : t.Shallow (d + 1) := ht.shallow (Nat.le_max_right ..)
  rw [← joinWithin_eq_join (hs'.mono (Nat.le_succ _)) (ht'.mono (Nat.le_succ _))]
  refine joinLayer_congr (fun _ _ ↦ shallow_joinWithin) (fun x y hx hy ↦ ?_)
    (hs'.mono (Nat.le_succ _)) (ht'.mono (Nat.le_succ _))
  exact joinWithin_eq_join hx hy

end JsonShapes.Shape

import Accessors.Proofs.Session.Uses
import Accessors.Proofs.Ty.Layers
import Accessors.Proofs.Wrapper.Found

/-! # Elements at a position

Sequences are asked for an index, mappings for a key and sets for an element. Whichever look-up a container has, and
whether the position goes to the outer or to the inner one of two wrappers that merge, what is found is the element
that the value has there, and where it has none nothing is found. Without a position the first element of a sequence
is meant. -/

namespace Accessors

/-! ### What is at a position -/

namespace Wrapper

def isSequence : Wrapper → Bool
  | vector | deque | linkedList => true
  | _ => false

def isMapping : Wrapper → Bool
  | hashMap _ | orderedMap _ => true
  | _ => false

def isSet : Wrapper → Bool
  | hashSet | orderedSet => true
  | _ => false

/-- A container has an element at a position: a sequence in the order of iteration, a mapping by its keys, and a set
    with the elements themselves for keys. -/
inductive Has (w : Wrapper) : Value → Position → Value → Prop where
  | item {vs : List Value} {i : Nat} (sequence : w.isSequence = true) (within : i < vs.length) :
      Has w (.items vs) (.index i) vs[i]
  | bound {vs : List Value} {k x : Value} (mapping : w.isMapping = true) (mem : .entry k x ∈ vs) :
      Has w (.items vs) (.key k) x
  | element {vs : List Value} {k : Value} (set : w.isSet = true) (mem : k ∈ vs) : Has w (.items vs) (.key k) k

end Wrapper

/-- A value of a type has an element at a position. -/
inductive Ty.ElementAt : Ty → Value → Position → Value → Prop where
  /-- A container that merges with nothing has its elements as they are. -/
  | container {w : Wrapper} {t : Ty} {v x : Value} {pos : Position} (alone : (wrap w t).traits.merged = false)
      (has : w.Has v pos x) : ElementAt (wrap w t) v pos x
  /-- The optional around a container has to be engaged. -/
  | inOptional {w : Wrapper} {t : Ty} {v x : Value} {pos : Position}
      (merged : (wrap .optional (wrap w t)).traits.merged = true) (has : w.Has v pos x) :
      ElementAt (wrap .optional (wrap w t)) (.holding v) pos x
  /-- Of a container of optionals the optional at the position has to be engaged. -/
  | ofOptionals {w : Wrapper} {t : Ty} {v x : Value} {pos : Position}
      (merged : (wrap w (wrap .optional t)).traits.merged = true) (has : w.Has v pos (.holding x)) :
      ElementAt (wrap w (wrap .optional t)) v pos x

namespace Value

/-- No key is bound to two values. -/
def BindsOnce (v : Value) : Prop := ∀ k x y, entry k x ∈ v.list → entry k y ∈ v.list → x = y

/-- No key is bound to two values in a mapping, or in the one inside an optional. -/
def Unambiguous (v : Value) : Prop := v.BindsOnce ∧ ∀ u, v = holding u → u.BindsOnce

variable {v x : Value} {i : Nat}

theorem mem_list_iff : x ∈ v.list ↔ ∃ vs, v = .items vs ∧ x ∈ vs := by
  cases v <;> simp [list]

theorem getElem?_list_iff : v.list[i]? = some x ↔ ∃ vs, v = .items vs ∧ ∃ within : i < vs.length, vs[i] = x := by
  cases v <;> simp [list, List.getElem?_eq_some_iff]

end Value

/-! ### What steps find -/

namespace Store
variable {s : Store} {p : Place} {o : Option Place} {has has' : Value → Prop} {v : Value}

/-- A step leads to a place with one of the given values, if there is one, and nowhere otherwise. -/
structure Finds (s : Store) (o : Option Place) (has : Value → Prop) : Prop where
  value : ∀ q, o = some q → ∃ x, s.get? q = some x ∧ has x
  place : ∀ x, has x → ∃ q, o = some q ∧ s.get? q = some x

theorem Finds.congr (h : s.Finds o has) (same : ∀ x, has x ↔ has' x) : s.Finds o has' where
  value q hq := by
    obtain ⟨x, hx, found⟩ := h.value q hq
    exact ⟨x, hx, (same x).mp found⟩
  place x hx := h.place x ((same x).mpr hx)

theorem finds_none (nothing : ∀ x, ¬has x) : s.Finds none has := ⟨nofun, fun x hx => absurd hx (nothing x)⟩

theorem Finds.bind {f : Place → Option Place} {next : Value → Value → Prop} (h : s.Finds o has)
    (step : ∀ q u, s.get? q = some u → has u → s.Finds (f q) (next u)) :
    s.Finds (o.bind f) fun x => ∃ u, has u ∧ next u x where
  value q hq := by
    obtain ⟨m, hm, hq⟩ := Option.bind_eq_some_iff.mp hq
    obtain ⟨u, hu, has⟩ := h.value m hm
    obtain ⟨x, hx, found⟩ := (step m u hu has).value q hq
    exact ⟨x, hx, u, has, found⟩
  place x hx := by
    obtain ⟨u, has, hx⟩ := hx
    obtain ⟨m, hm, hu⟩ := h.place u has
    obtain ⟨q, hq, hx⟩ := (step m u hu has).place x hx
    exact ⟨q, Option.bind_eq_some_iff.mpr ⟨m, hm, hq⟩, hx⟩

variable (hv : s.get? p = some v)
include hv

theorem get?_item_eq (i : Nat) : s.get? (p.item i) = v.list[i]? := by
  rw [← getElem?_items, items_eq, value_eq hv]

theorem finds_inside : s.Finds (s.inside? p) fun x => v = .holding x where
  value q hq := by
    obtain ⟨rfl, x, hx⟩ := inside?_eq_some.mp hq
    cases hv.symm.trans hx
    exact ⟨x, by rw [Place.inside, get?_step, hx]; rfl, rfl⟩
  place x hx := by
    subst hx
    exact ⟨p.inside, inside?_eq_some.mpr ⟨rfl, x, hv⟩, by rw [Place.inside, get?_step, hv]; rfl⟩

theorem finds_item (i : Nat) : s.Finds (s.item? p i) fun x => v.list[i]? = some x where
  value q hq := by
    obtain ⟨rfl, x, hx⟩ := item?_eq_some.mp hq
    exact ⟨x, hx, (get?_item_eq hv i).symm.trans hx⟩
  place x hx := by
    have hx := (get?_item_eq hv i).trans hx
    exact ⟨p.item i, item?_eq_some.mpr ⟨rfl, x, hx⟩, hx⟩

/-- Of entries with distinct keys the look-up finds the one with the key. -/
theorem finds_bound (once : v.BindsOnce) (k : Value) : s.Finds (s.bound? p k) fun x => .entry k x ∈ v.list where
  value q hq := by
    obtain ⟨i, x, rfl, hx⟩ := bound?_eq_some hq
    refine ⟨x, by rw [Place.inside, get?_step, hx]; rfl, ?_⟩
    rw [get?_item_eq hv] at hx
    exact List.mem_of_getElem? hx
  place x hx := by
    have isSome : (s.bound? p k).isSome := by
      rw [bound?_eq, Option.isSome_map, List.findIdx?_isSome, items_eq, value_eq hv, List.any_eq_true]
      exact ⟨_, hx, beq_self_eq_true k⟩
    obtain ⟨q, hq⟩ := Option.isSome_iff_exists.mp isSome
    obtain ⟨i, y, rfl, hy⟩ := bound?_eq_some hq
    have mem : .entry k y ∈ v.list := List.mem_of_getElem? ((get?_item_eq hv i).symm.trans hy)
    cases once k x y hx mem
    exact ⟨_, hq, by rw [Place.inside, get?_step, hy]; rfl⟩

theorem finds_element (k : Value) : s.Finds (s.element? p k) fun x => x = k ∧ k ∈ v.list where
  value q hq := by
    obtain ⟨i, hi, rfl⟩ := Option.map_eq_some_iff.mp hq
    rw [items_eq, value_eq hv] at hi
    obtain ⟨hlt, equal, -⟩ := List.findIdx?_eq_some_iff_getElem.mp hi
    have hk : v.list[i] = k := beq_iff_eq.mp equal
    exact ⟨k, by rw [get?_item_eq hv, List.getElem?_eq_getElem hlt, hk], rfl, hk ▸ List.getElem_mem hlt⟩
  place x hx := by
    obtain ⟨rfl, mem⟩ := hx
    have isSome : ((s.items p).findIdx? (· == x)).isSome := by
      rw [List.findIdx?_isSome, items_eq, value_eq hv, List.any_eq_true]
      exact ⟨x, mem, beq_self_eq_true x⟩
    obtain ⟨i, hi⟩ := Option.isSome_iff_exists.mp isSome
    refine ⟨p.item i, by rw [element?, hi]; rfl, ?_⟩
    rw [items_eq, value_eq hv] at hi
    obtain ⟨hlt, equal, -⟩ := List.findIdx?_eq_some_iff_getElem.mp hi
    rw [get?_item_eq hv, List.getElem?_eq_getElem hlt, beq_iff_eq.mp equal]

end Store

/-! ### One container -/

namespace Wrapper
variable {w : Wrapper} {s : Store} {p : Place} {pos : Position} {v x : Value}

theorem finds_readAt_index (hv : s.get? p = some v) (i : Nat) :
    s.Finds (w.readAt (.index i) s p) (w.Has v (.index i)) := by
  by_cases sequence : w.isSequence = true
  · have look : w.readAt (.index i) s p = s.item? p i := by
      cases w <;> first | rfl | cases sequence
    rw [look]
    refine (s.finds_item hv i).congr fun x => Value.getElem?_list_iff.trans ⟨?_, fun has => ?_⟩
    · rintro ⟨vs, rfl, within, rfl⟩
      exact .item sequence within
    · cases has with
      | item _ within => exact ⟨_, rfl, within, rfl⟩
  · have look : w.readAt (.index i) s p = none := by
      cases w <;> first | rfl | exact absurd rfl sequence
    rw [look]
    refine Store.finds_none fun x has => ?_
    cases has with
    | item sequence' _ => exact sequence sequence'

theorem finds_readAt_key (hv : s.get? p = some v) (once : v.BindsOnce) (k : Value) :
    s.Finds (w.readAt (.key k) s p) (w.Has v (.key k)) := by
  by_cases mapping : w.isMapping = true
  · have look : w.readAt (.key k) s p = s.bound? p k := by
      cases w <;> first | rfl | cases mapping
    have noSet : ¬w.isSet = true := by
      cases w <;> first | exact Bool.false_ne_true | cases mapping
    rw [look]
    refine (s.finds_bound hv once k).congr fun x => Value.mem_list_iff.trans ⟨?_, fun has => ?_⟩
    · rintro ⟨vs, rfl, mem⟩
      exact .bound mapping mem
    · cases has with
      | bound _ mem => exact ⟨_, rfl, mem⟩
      | element set _ => exact absurd set noSet
  · by_cases set : w.isSet = true
    · have look : w.readAt (.key k) s p = s.element? p k := by
        cases w <;> first | rfl | cases set
      rw [look]
      refine (s.finds_element hv k).congr fun x => ⟨?_, fun has => ?_⟩
      · rintro ⟨rfl, mem⟩
        obtain ⟨vs, rfl, mem⟩ := Value.mem_list_iff.mp mem
        exact .element set mem
      · cases has with
        | bound mapping' _ => exact absurd mapping' mapping
        | element _ mem => exact ⟨rfl, mem⟩
    · have look : w.readAt (.key k) s p = none := by
        cases w <;> first | rfl | exact absurd rfl mapping | exact absurd rfl set
      rw [look]
      refine Store.finds_none fun x has => ?_
      cases has with
      | bound mapping' _ => exact mapping mapping'
      | element set' _ => exact set set'

/-- Each way of looking up finds what the container has at the position. -/
theorem finds_readAt (hv : s.get? p = some v) (once : ∀ k, pos = .key k → v.BindsOnce) :
    s.Finds (w.readAt pos s p) (w.Has v pos) := by
  cases pos with
  | index i => exact finds_readAt_index hv i
  | key k => exact finds_readAt_key hv (once k rfl) k

theorem readAt_of_not_positional (w : Wrapper) (h : ¬w.positional = true) : w.readAt pos s p = none := by
  cases w <;> first | rfl | exact absurd rfl h

theorem positional_of_has (h : w.Has v pos x) : w.positional = true := by
  cases h <;> cases w <;> first | rfl | contradiction

end Wrapper

/-! ### Types -/

namespace Ty
variable {t u : Ty} {w : Wrapper} {s : Store} {p : Place} {pos : Position} {v x : Value}

theorem elementAt_of_not_merged (alone : (wrap w t).traits.merged = false) :
    (wrap w t).ElementAt v pos x ↔ w.Has v pos x := by
  constructor
  · intro h
    cases h with
    | container _ has => exact has
    | inOptional merged _ | ofOptionals merged _ => cases merged.symm.trans alone
  · exact .container alone

theorem elementAt_inOptional (merged : (wrap .optional (wrap w t)).traits.merged = true) :
    (wrap .optional (wrap w t)).ElementAt v pos x ↔ ∃ u, v = .holding u ∧ w.Has u pos x := by
  constructor
  · intro h
    cases h with
    | container alone _ => cases merged.symm.trans alone
    | inOptional _ has => exact ⟨_, rfl, has⟩
    | ofOptionals _ has => cases Wrapper.positional_of_has has
  · rintro ⟨u, rfl, has⟩
    exact .inOptional merged has

theorem elementAt_ofOptionals (merged : (wrap w (wrap .optional t)).traits.merged = true) :
    (wrap w (wrap .optional t)).ElementAt v pos x ↔ w.Has v pos (.holding x) := by
  constructor
  · intro h
    cases h with
    | container alone _ => cases merged.symm.trans alone
    | inOptional _ has => cases Wrapper.positional_of_has has
    | ofOptionals _ has => exact has
  · exact .ofOptionals merged

theorem not_elementAt_of_not_positional {v' : Wrapper} (merged : (wrap w (wrap v' t)).traits.merged = true)
    (outer : ¬w.positional = true) (inner : ¬v'.positional = true) : ¬(wrap w (wrap v' t)).ElementAt v pos x := by
  intro h
  cases h with
  | container alone _ => cases merged.symm.trans alone
  | inOptional _ has => exact inner (Wrapper.positional_of_has has)
  | ofOptionals _ has => exact outer (Wrapper.positional_of_has has)

/-- The step to the element at a position finds what the value has there. -/
theorem finds_readAt (hv : s.get? p = some v) (once : ∀ k, pos = .key k → v.Unambiguous) :
    s.Finds (t.readAt pos s p) (t.ElementAt v pos) := by
  cases t with
  | plain n => exact Store.finds_none fun _ h => nomatch h
  | wrap w t =>
    have here := Wrapper.finds_readAt (w := w) hv fun k hk => (once k hk).1
    rcases layers w t with @⟨u, t, k, pair, -, whole⟩ | ⟨-, whole⟩
    · have merged := congrArg Traits.merged whole
      simp only [readAt, mergedPair?_of_merged merged]
      by_cases outer : w.positional = true
      · -- The container is outside, and the optional that it has at the position is opened.
        have optional : u = .optional := by
          cases w <;> first | (cases outer; done) | (cases u <;> first | rfl | cases pair)
        subst optional
        rw [if_pos outer]
        refine (here.bind fun q m hm _ => s.finds_inside hm).congr fun x => ?_
        rw [elementAt_ofOptionals merged]
        simp
      · rw [if_neg outer]
        by_cases inner : u.positional = true
        · -- The container is inside an optional, which is opened first.
          have optional : w = .optional := by
            cases u <;> first | (cases inner; done) | (cases w <;> first | rfl | cases pair)
          subst optional
          refine ((s.finds_inside hv).bind fun q m hm held => ?_).congr fun x => (elementAt_inOptional merged).symm
          exact Wrapper.finds_readAt hm fun k hk => (once k hk).2 m held
        · -- A pair without a container has no positions.
          have nowhere : u.readAt pos s = fun _ => none := funext fun q => u.readAt_of_not_positional inner
          rw [nowhere, Option.bind_fun_none]
          exact Store.finds_none fun x => not_elementAt_of_not_positional merged outer inner
    · have alone := congrArg Traits.merged whole
      simp only [readAt, mergedPair?_of_not_merged alone]
      exact here.congr fun x => (elementAt_of_not_merged alone).symm

/-! ### The first element -/

/-- A type that takes an index is entered at its first element. -/
theorem enters_first (h : t.position? = some .index) (s : Store) (p : Place) :
    t.read s p = t.readAt (.index 0) s p ∧ t.write s p = t.writeAt (.index 0) s p ∧ t.unwrapped = t.element := by
  cases t with
  | plain n => cases h
  | wrap w t =>
    rcases layers w t with @⟨u, t, k, pair, -, whole⟩ | ⟨-, whole⟩
    · have merged := congrArg Traits.merged whole
      simp only [position?, mergedPair?_of_merged merged] at h
      simp only [read, readAt, write, writeAt, unwrapped, element, mergedPair?_of_merged merged, whole]
      cases w <;> cases u <;> simp [Shape.combine, Wrapper.shape] at pair <;> subst pair <;>
        first
        | (cases h; done)
        | exact ⟨rfl, rfl, rfl⟩
    · have alone := congrArg Traits.merged whole
      unfold position? at h
      simp only [mergedPair?_of_not_merged alone] at h
      simp only [read, readAt, write, writeAt, unwrapped, element, mergedPair?_of_not_merged alone, whole]
      cases w <;>
        first
        | (cases h; done)
        | exact ⟨rfl, rfl, rfl⟩

end Ty

/-! ### Members -/

/-- An accessor leads from a root to a place with one of the given values, if there is one, and nowhere otherwise. -/
def Erased.FindsExactly {R V : Ty} (e : Erased R V) (s : Store) (p : Place) (has : Value → Prop) : Prop :=
  ∃ o, e.get s p = .ok (.done o) ∧ s.Finds o has

namespace Member
variable (m : Member) (R : Ty) {s : Store} {p : Place} {v : Value}

/-- The accessors of a member at the positions reach the elements of its value `v`, and no others. -/
structure ReachesElements (s : Store) (p : Place) (v : Value) : Prop where
  index : ∀ i, (Erased.of (m.frAt R (.index i))).FindsExactly s p (m.type.ElementAt v (.index i))
  /-- A mapping has to have one value for a key. -/
  key : v.Unambiguous → ∀ k, (Erased.of (m.frAt R (.key k))).FindsExactly s p (m.type.ElementAt v (.key k))
  /-- Without an index the accessors lead to the first element. -/
  first : m.type.position? = some .index → m.type.unwrapped = m.type.element ∧
    (Erased.of (m.fr R)).get s p = (Erased.of (m.frAt R (.index 0))).get s p ∧
    (Erased.of (m.fw R)).getMut s p = (Erased.of (m.fwAt R (.index 0))).getMut s p

theorem reaches_elements (hv : s.get? (m.place p) = some v) : m.ReachesElements R s p v where
  index i := ⟨_, m.get_frAt R s p (.index i), Ty.finds_readAt hv nofun⟩
  key once k := ⟨_, m.get_frAt R s p (.key k), Ty.finds_readAt hv fun _ _ => once⟩
  first h := by
    obtain ⟨read, write, type⟩ := Ty.enters_first h s (m.place p)
    exact ⟨type, by rw [get_fr, get_frAt, read], by rw [getMut_fw, getMut_fwAt, write]⟩

/-! ### A warehouse

A slot may be empty, the row of bins may be missing, and a part in stock need not be counted. -/

def slots : Member := ⟨"slots", 0, .wrap .vector (.wrap .optional (.plain "int")), .all⟩

def bins : Member := ⟨"bins", 1, .wrap .optional (.wrap .vector (.plain "int")), .all⟩

def stock : Member := ⟨"stock", 2, .wrap (.hashMap (.atom "std::string")) (.wrap .optional (.plain "int")), .all⟩

def inSlots : Value := .items [.empty, .holding (.int 2)]

def inBins : Value := .holding (.items [.int 1, .int 2])

def inStock : Value := .items [.entry (.text "bolt") (.holding (.int 4)), .entry (.text "nut") .empty]

def warehouse : Store := ⟨[.items [inSlots, inBins, inStock]], [], []⟩

theorem unambiguous_inStock : inStock.Unambiguous := by
  refine ⟨fun k x y hx hy => ?_, nofun⟩
  simp only [inStock, Value.list, List.mem_cons, Value.entry.injEq, List.not_mem_nil, or_false] at hx hy
  rcases hx with ⟨rfl, rfl⟩ | ⟨rfl, rfl⟩ <;> rcases hy with ⟨hk, rfl⟩ | ⟨hk, rfl⟩ <;>
    first
    | rfl
    | simp at hk

theorem reaches_elements_warehouse :
    slots.ReachesElements (.plain "w::Warehouse") warehouse Session.root inSlots ∧
    bins.ReachesElements (.plain "w::Warehouse") warehouse Session.root inBins ∧
    (∀ k, (Erased.of (stock.frAt (.plain "w::Warehouse") (.key k))).FindsExactly warehouse Session.root
      (stock.type.ElementAt inStock (.key k))) ∧
    (slots.type.ElementAt inSlots (.index 1) (.int 2) ∧ slots.type.position? = some .index) ∧
    stock.type.ElementAt inStock (.key (.text "bolt")) (.int 4) := by
  refine ⟨reaches_elements _ _ rfl, reaches_elements _ _ rfl, (reaches_elements stock _ rfl).key unambiguous_inStock,
    ⟨.ofOptionals rfl (.item rfl (by decide)), rfl⟩, .ofOptionals rfl (.bound rfl (.head _))⟩

end Member
end Accessors

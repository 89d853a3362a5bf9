import Accessors.Proofs.Session.Lens

/-! # Accessors of a case stay inside it

While another case is active, none of the accessors of a case finds anything, and none changes the union. While the
case itself is active, its reading and writing accessors go together as partial lenses: those to the whole payload, to
what is unwrapped from it, to an element of it and to a field of it. Whatever is written, the case stays active, and
outside the place that is written everything is as it was, the other elements and the other fields as well. -/

namespace Accessors

/-! ### What the table promises -/

namespace Shape
variable {k : Shape} {m : Sharing}

/-- What is lent for writing is also lent for reading. -/
theorem offered_readable (h : (k.capabilities m).offered.contains .failableWritable = true) :
    (k.capabilities m).offered.contains .failableReadable = true := by
  cases k <;> first | rfl | cases h

theorem atPosition_readable (h : (k.capabilities m).atPosition.contains .failableWritable = true) :
    (k.capabilities m).atPosition.contains .failableReadable = true := by
  cases k <;> first | rfl | cases h

end Shape

namespace UnionCase
variable (c : UnionCase) (U : Ty)

/-- The accessors that are declared for a case. -/
inductive Declares : {V : Ty} → Erased U V → Prop
  | whole {V : Ty} {f : Flavor} {e : Erased U V} (h : c.caseAccessor? U f = some (.fixed e)) : Declares e
  | unwrapped {V : Ty} {f : Flavor} {e : Erased U V} (h : c.unwrapAccessor? U f = some (.fixed e)) : Declares e
  | element {V : Ty} {f : Flavor} {t : PositionType} {path : Position → Erased U V}
      (h : c.accessorAt? U f = some (.positional t path)) (pos : Position) : Declares (path pos)
  | field {V : Ty} {f : Flavor} {name : String} {e : Erased U V} (h : c.field? U f name = some (.fixed e)) : Declares e

/-- A payload has a value for each of the fields that have accessors. -/
def FillsFields (v : Value) : Prop := ∀ i < c.payload.accessibleFields.length, ∃ u, v.child? (.item i) = some u

end UnionCase

namespace Session
variable {c : UnionCase} {U V : Ty} {s : Store} {v : Value} {i : Nat}

/-! ### While another case is active -/

/-- An accessor that finds nothing in the root and changes nothing. A root that is moved in is used up all the same. -/
structure FindsNothing (e : Erased U V) (s : Store) : Prop where
  read : e.flavor.reads = true → read e s = .ok (.done none)
  write : e.flavor.writes = true → ∀ x, write e x s = .ok (.done (s, none))
  take : e.flavor.owns = true → ∀ moved, take e moved s = .ok (.done ((give moved s).1, none))

theorem FindsNothing.of_lends {e : Erased U V} (reads : e.flavor.reads = true → e.get s root = .ok (.done none))
    (writes : e.flavor.writes = true → e.getMut s root = .ok (.done none)) (owns : e.flavor.owns = false) :
    FindsNothing e s where
  read h := by
    rw [Session.read, reads h]
    rfl
  write h x := by
    rw [Session.write, writes h]
    rfl
  take h := by
    rw [owns] at h
    cases h

theorem give_snd (moved : Bool) (s : Store) : (give moved s).2 = s.value root := by
  cases moved <;> rfl

section
variable (hu : s.get? root = some (.alternative i v)) (other : i ≠ c.index)
include hu other

theorem extract_of_other : c.extract s root = none := by
  simp only [UnionCase.extract, hu, if_neg other]

/-- An accessor that starts with the step into the case finds nothing. -/
theorem findsNothing_of_extract {e : Erased U V} (f : Option Place → Option Place) (strict : f none = none)
    (reads : e.flavor.reads = true → e.get s root = .ok (.done (f (c.extract s root))))
    (writes : e.flavor.writes = true → e.getMut s root = .ok (.done (f (c.extract s root))))
    (owns : e.flavor.owns = false) : FindsNothing e s := by
  rw [extract_of_other hu other, strict] at reads writes
  exact .of_lends reads writes owns

theorem findsNothing_fo : FindsNothing (.of (c.fo U)) s where
  read h := nomatch h
  write h := nomatch h
  take _ moved := by
    generalize ht : (give moved s).1 = t
    have none : c.extract (t.push (.alternative i v)).1 (t.push (.alternative i v)).2 = none := by
      simp only [UnionCase.extract, Store.get?_push, if_neg other]
    rw [Session.take, give_snd, Store.value_eq hu, c.getOwned_fo, ht, inVariable]
    simp only [none, Store.pop_push]

/-- No accessor of a case finds anything while another case is active. -/
theorem findsNothing_of_declares {e : Erased U V} (h : c.Declares U e) : FindsNothing e s := by
  have whole := findsNothing_of_extract (e := e) hu other id rfl
  have part := fun f => findsNothing_of_extract (e := e) hu other (·.bind f) rfl
  have field := fun f => findsNothing_of_extract (e := e) hu other (Option.map f) rfl
  cases h with
  | whole h =>
    unfold UnionCase.caseAccessor? at h
    split at h
    · rename_i f _
      cases f <;> cases h
      · exact whole (fun _ => rfl) (fun h => nomatch h) rfl
      · exact whole (fun _ => rfl) (fun _ => rfl) rfl
    · cases h
  | unwrapped h =>
    unfold UnionCase.unwrapAccessor? at h
    split at h
    · rename_i f _
      cases f <;> cases h
      · exact part _ (fun _ => rfl) (fun h => nomatch h) rfl
      · exact part _ (fun h => nomatch h) (fun _ => rfl) rfl
      · exact findsNothing_fo hu other
    · cases h
  | element h pos =>
    unfold UnionCase.accessorAt? at h
    split at h
    · split at h <;> cases h
      · exact part _ (fun _ => rfl) (fun h => nomatch h) rfl
      · exact part _ (fun h => nomatch h) (fun _ => rfl) rfl
    · cases h
  | field h =>
    unfold UnionCase.field? at h
    split at h
    · split at h <;> cases h
      · exact field _ (fun _ => rfl) (fun h => nomatch h) rfl
      · exact field _ (fun h => nomatch h) (fun _ => rfl) rfl
    · cases h

end

/-! ### While the case is active -/

/-- Whatever is written, the case is active afterwards. -/
def KeepsCase (c : UnionCase) (w : Erased U V) (s : Store) : Prop :=
  ∀ x s', written w x s = some s' → ∃ v, s'.get? root = some (.alternative c.index v)

section
variable {look reach : Store → Place → Option Place} {handles : Store → Place → List Nat}

/-- What makes a partial lens inside a payload makes one behind the step into the case. -/
theorem steady_case (steady : Steady (look · root.inside) (reach · root.inside) (handles · root.inside))
    (deeper : ∀ s q, look s root.inside = some q → ¬q.Covers root) :
    Steady (fun s => (c.extract s root).bind (look s)) (fun s => (c.extract s root).bind (reach s))
      (fun s => (c.extract s root).elim [] (handles s)) where
  found s q := by
    cases hp : c.extract s root with
    | none => simp
    | some p =>
      cases c.eq_inside_of_extract s root hp
      exact steady.found s q
  set s q x h := by
    obtain ⟨p, hp, hq⟩ := Option.bind_eq_some_iff.mp h
    cases c.eq_inside_of_extract s root hp
    have same : c.extract (s.set q x) root = some root.inside :=
      (UnionCase.extract_congr (Store.alike_set (deeper s q hq))).symm.trans hp
    simp only [same, hp]
    exact steady.set s q x hq
  push s x hs := by
    have same : c.extract (s.push x).1 root = c.extract s root :=
      (UnionCase.extract_congr (Store.alike_push (ne_further (p := root) rfl hs (.inl rfl)))).symm
    simp only [same]
    cases hp : c.extract s root with
    | none => exact ⟨rfl, rfl⟩
    | some p =>
      cases c.eq_inside_of_extract s root hp
      exact steady.push s x hs
  base s q hs h := by
    obtain ⟨p, hp, hq⟩ := Option.bind_eq_some_iff.mp h
    cases c.eq_inside_of_extract s root hp
    exact steady.base s q hs hq
  handle s q h d hd := by
    obtain ⟨p, hp, hq⟩ := Option.bind_eq_some_iff.mp h
    cases c.eq_inside_of_extract s root hp
    rw [hp] at hd
    exact steady.handle s q hq d hd

end

theorem not_covers_root {q : Place}
    (h : q.base = root.base ∧ root.path.length < q.path.length ∨ ∃ d, q.base = .cell d) : ¬q.Covers root := by
  rcases h with ⟨-, length⟩ | ⟨d, base⟩
  · exact Place.not_covers_of_length length
  · exact Place.not_covers_of_base fun h => nomatch h.trans base

/-- What is behind some wrappers covers no place that is less deep in the variable. -/
theorem not_covers_root_of_passage {ws : List Wrapper} {p q : Place} (base : p.base = .slot 0)
    (length : 0 < p.path.length) (once : Passage.Once ws) (h : Passage.read s ws p = some q) : ¬q.Covers root := by
  refine not_covers_root ((Passage.leads once base h).base.imp_left fun ⟨same, deeper⟩ => ⟨same.trans base, ?_⟩)
  rw [deeper]
  exact Nat.lt_of_lt_of_le length (Nat.le_add_right _ _)

theorem not_covers_root_of_element {a : Passage.At} {pos : Position} {q : Place} (lends : a.Lends)
    (h : a.read pos s root.inside = some q) : ¬q.Covers root := by
  obtain ⟨base, length⟩ := Passage.At.read_inside lends h
  exact not_covers_root (.inl ⟨base, by rw [length, Place.length_inside]; omega⟩)

section
variable (hu : s.get? root = some (.alternative c.index v))
include hu

theorem extract_of_active : c.extract s root = some root.inside :=
  (c.extract_eq_some s root).mpr ⟨rfl, v, hu⟩

theorem slots_ne_nil : s.slots ≠ [] := by
  intro hnil
  simp [Store.get?, root, Place.slot, Store.root?, hnil] at hu

theorem get?_payload : s.get? root.inside = some v := by
  rw [Place.inside, Store.get?_step, hu]
  rfl

/-- Accessors that start with the step into an active case and go on steadily are a partial lens, and the case stays
    active. -/
theorem case_lens (look reach : Store → Place → Option Place) (handles : Store → Place → List Nat) {r w : Erased U V}
    (steady : Steady (look · root.inside) (reach · root.inside) (handles · root.inside))
    (deeper : ∀ s q, look s root.inside = some q → ¬q.Covers root)
    (reads : ∀ s, r.get s root = .ok (.done ((c.extract s root).bind (look s))))
    (writes : ∀ s, w.getMut s root = .ok (.done ((c.extract s root).bind (reach s))))
    (value : ∀ q, look s root.inside = some q → ∃ u, s.get? q = some u) :
    LawfulPair r w (handles s root.inside) s ∧ KeepsCase c w s := by
  have active := extract_of_active hu
  constructor
  · have lawful := lawfulPair_of_steady (steady_case (c := c) steady deeper) reads writes (slots_ne_nil hu) fun q hq =>
      value q (by rwa [active] at hq)
    rwa [active] at lawful
  · intro x s' h
    rw [written_eq writes, active, Option.map_eq_some_iff] at h
    obtain ⟨q, hq, rfl⟩ := h
    have alike := Store.alike_set (s := s) (x := x) (deeper s q ((steady.found s q).mp hq).1)
    exact ((c.extract_eq_some _ root).mp ((UnionCase.extract_congr alike).symm.trans active)).2

/-- Accessors to the elements of the payload of an active case. -/
theorem case_element {a : Passage.At} {r w : Position → Erased U V} (closed : s.Closed) (lends : a.Lends)
    (reads : ∀ pos s, (r pos).get s root = .ok (.done ((c.extract s root).bind (a.read pos s))))
    (writes : ∀ pos s, (w pos).getMut s root = .ok (.done ((c.extract s root).bind (a.write pos s)))) (pos : Position) :
    LawfulAt r w pos (a.handles pos s root.inside) s ∧ KeepsCase c (w pos) s := by
  have active := extract_of_active hu
  obtain ⟨pair, keeps⟩ := case_lens hu (a.read pos) (a.write pos) (a.handles pos)
    (steady_element rfl lends pos) (fun _ _ h => not_covers_root_of_element lends h) (reads pos) (writes pos)
    fun q hq => Passage.At.exists_get? lends hq closed
  -- A write leaves the case active and the way to every element as it was.
  have after : ∀ x s', written (w pos) x s = some s' → ∃ q, a.read pos s root.inside = some q ∧ s' = s.set q x ∧
      c.extract s' root = some root.inside := by
    intro x s' h
    have still := keeps x s' h
    rw [written_eq (writes pos), active, Option.map_eq_some_iff] at h
    obtain ⟨q, hq, rfl⟩ := h
    obtain ⟨v', hv'⟩ := still
    rw [Option.bind_some, Passage.At.write_eq_read lends] at hq
    exact ⟨q, hq, rfl, extract_of_active hv'⟩
  refine ⟨⟨pair, fun x s' h pos' => ?_, fun x s' h pos' other => ?_⟩, keeps⟩
  · obtain ⟨q, hq, rfl, active'⟩ := after x s' h
    rw [lent_eq (reads pos'), lent_eq (reads pos'), active, active', Option.bind_some, Option.bind_some,
      Passage.At.read_set lends hq]
  · obtain ⟨q, hq, rfl, active'⟩ := after x s' h
    rw [seen_eq (reads pos'), seen_eq (reads pos'), active, active', Option.bind_some, Option.bind_some,
      Passage.At.read_set lends hq]
    cases hq' : a.read pos' s root.inside with
    | none => rfl
    | some q' =>
      have apart := Store.get?_set_of_apart (s := s) (x := x) (Passage.At.not_covers lends hq hq' (Ne.symm other))
        (Passage.At.not_covers lends hq' hq other)
      simp only [Option.map_some, Store.value, apart]

end

end Session

/-! ### Cases -/

namespace UnionCase
variable (c : UnionCase) (U : Ty) {s : Store} {v : Value} {i : Nat}
open Session

/-- What is written through the accessors of an active case stays inside it and is read back. -/
structure StaysInside (c : UnionCase) (U : Ty) (s : Store) : Prop where
  /-- The whole payload is there, and a writing case accessor also reads it. -/
  whole : c.offersCase .caseWritable = true → KeepsCase c (.of (c.caseW U)) s ∧
    lentMut (.of (c.caseW U)) s = some root.inside ∧ LawfulPair (.of (c.caseR U)) (.of (c.caseW U)) [] s ∧
    LawfulPair (.of (c.caseW U)) (.of (c.caseW U)) [] s
  unwrapped : c.offersUnwrap .failableWritable = true → KeepsCase c (.of (c.fw U)) s ∧
    LawfulPair (.of (c.fr U)) (.of (c.fw U)) (c.type.passed s root.inside) s
  element : c.offersAt .failableWritable = true → ∀ pos, KeepsCase c (.of (c.fwAt U pos)) s ∧
    LawfulAt (fun pos => .of (c.frAt U pos)) (fun pos => .of (c.fwAt U pos)) pos (c.type.passedAt pos s root.inside) s
  /-- Each field is there, and the fields at other indices stay as they are. -/
  field : c.offersField .failableWritable = true → ∀ i f, c.payload.accessibleFields[i]? = some f →
    KeepsCase c (.of (c.fieldW U f.2 i)) s ∧ lentMut (.of (c.fieldW U f.2 i)) s = some (root.inside.item i) ∧
    LawfulPair (.of (c.fieldR U f.2 i)) (.of (c.fieldW U f.2 i)) [] s ∧
    ∀ x s', written (.of (c.fieldW U f.2 i)) x s = some s' → ∀ j, j ≠ i → ∀ V,
      seen (.of (c.fieldR U V j)) s' = seen (.of (c.fieldR U V j)) s

section
variable {c U} (hu : s.get? root = some (.alternative c.index v))
include hu

/-- A place inside the payload that is lent for reading and for writing. -/
theorem part_lens {V : Ty} {r w : Erased U V} (part : Place → Place) (base : (part root.inside).base = .slot 0)
    (length : 0 < (part root.inside).path.length) (value : ∃ u, s.get? (part root.inside) = some u)
    (reads : ∀ s, r.get s root = .ok (.done ((c.extract s root).map part)))
    (writes : ∀ s, w.getMut s root = .ok (.done ((c.extract s root).map part))) :
    LawfulPair r w [] s ∧ KeepsCase c w s := by
  have steady : Steady (Passage.read · [] (part root.inside)) (Passage.write · [] (part root.inside))
      (Passage.handles · [] (part root.inside)) := steady_passage base (List.forall_mem_nil _) .nil
  refine case_lens hu (fun _ p => some (part p)) (fun _ p => some (part p)) (fun _ _ => []) steady ?_ (fun s => ?_)
    (fun s => ?_) ?_
  · rintro s _ ⟨⟩
    exact not_covers_root (.inl ⟨base, length⟩)
  · rw [reads, Option.map_eq_bind, Function.comp_def]
  · rw [writes, Option.map_eq_bind, Function.comp_def]
  · rintro _ ⟨⟩
    exact value

theorem whole_lens {r : Erased U c.type} (reads : ∀ s, r.get s root = .ok (.done (c.extract s root))) :
    LawfulPair r (.of (c.caseW U)) [] s ∧ KeepsCase c (.of (c.caseW U)) s := by
  refine part_lens hu id rfl (by decide) ⟨v, get?_payload hu⟩ (fun s => ?_) fun s => ?_
  · rw [reads, Option.map_id_fun, id]
  · rw [c.getMut_caseW, Option.map_id_fun, id]

theorem unwrapped_lens (closed : s.Closed) (offers : c.offersUnwrap .failableWritable = true) :
    LawfulPair (.of (c.fr U)) (.of (c.fw U)) (c.type.passed s root.inside) s ∧ KeepsCase c (.of (c.fw U)) s := by
  simp only [offersUnwrap, Bool.and_eq_true] at offers
  have lends := Ty.lendsMut_of_offered (Shape.offered_readable offers.1.2) offers.1.2
  have once := c.type.once_passage
  refine case_lens hu c.type.read c.type.write c.type.passed ?_ (fun s q h => ?_) (fun _ => rfl)
    (fun _ => rfl) fun q h => ?_
  · simp only [Ty.read_eq_passage, Ty.write_eq_passage]
    exact steady_passage rfl lends once
  · rw [Ty.read_eq_passage] at h
    exact not_covers_root_of_passage rfl (by decide) once h
  · rw [Ty.read_eq_passage] at h
    exact Passage.exists_get? closed ⟨v, get?_payload hu⟩ h

theorem element_lens (closed : s.Closed) (offers : c.offersAt .failableWritable = true) (pos : Position) :
    LawfulAt (fun pos => .of (c.frAt U pos)) (fun pos => .of (c.fwAt U pos)) pos (c.type.passedAt pos s root.inside) s ∧
      KeepsCase c (.of (c.fwAt U pos)) s := by
  simp only [offersAt, Bool.and_eq_true] at offers
  obtain ⟨a, way, lends⟩ := Ty.wayAt_of_offered (Shape.atPosition_readable offers.1.2) offers.1.2
  have reads : ∀ pos s,
      (Erased.of (c.frAt U pos)).get s root = .ok (.done ((c.extract s root).bind (a.read pos s))) := by
    intro pos s
    have same : c.type.readAt pos s = a.read pos s := funext fun _ => Ty.readAt_eq_way way
    rw [← same]
    rfl
  have writes : ∀ pos s,
      (Erased.of (c.fwAt U pos)).getMut s root = .ok (.done ((c.extract s root).bind (a.write pos s))) := by
    intro pos s
    have same : c.type.writeAt pos s = a.write pos s := funext fun _ => Ty.writeAt_eq_way way
    rw [← same]
    rfl
  have passed : c.type.passedAt pos s root.inside = a.handles pos s root.inside := by
    simp only [Ty.passedAt, way]
  rw [passed]
  exact case_element hu closed lends reads writes pos

theorem field_lens {f : String × Ty} (fills : c.FillsFields v) (hf : c.payload.accessibleFields[i]? = some f) :
    LawfulPair (.of (c.fieldR U f.2 i)) (.of (c.fieldW U f.2 i)) [] s ∧ KeepsCase c (.of (c.fieldW U f.2 i)) s := by
  obtain ⟨u, hitem⟩ := fills i (List.getElem?_eq_some_iff.mp hf).1
  refine part_lens hu (·.item i) rfl (by simp) ⟨u, ?_⟩ (fun s => c.get_fieldR U s root f.2 i)
    fun s => c.getMut_fieldW U s root f.2 i
  rw [Place.item, Store.get?_step, get?_payload hu]
  exact hitem

/-- A write to a field leaves the other ones. -/
theorem other_fields {V : Ty} {x : Value} {s' : Store} (keeps : KeepsCase c (.of (c.fieldW U V i)) s)
    (h : written (.of (c.fieldW U V i)) x s = some s') {j : Nat} (other : j ≠ i) (W : Ty) :
    seen (.of (c.fieldR U W j)) s' = seen (.of (c.fieldR U W j)) s := by
  obtain ⟨v', hv'⟩ := keeps x s' h
  have reads := fun s => c.get_fieldR U s root W j
  rw [seen_eq reads, seen_eq reads, extract_of_active hv', extract_of_active hu]
  rw [written_eq fun s => c.getMut_fieldW U s root V i, extract_of_active hu] at h
  cases h
  have apart : ∀ {k l : Nat}, k ≠ l → ¬(root.inside.item k).Covers (root.inside.item l) := fun hne covers =>
    hne (Place.item_injective (covers.eq_of_length (Place.covers_refl _) (by simp)))
  simp only [Option.map_some, Store.value, Store.get?_set_of_apart (apart other.symm) (apart other)]

theorem staysInside (closed : s.Closed) (fills : c.FillsFields v) : c.StaysInside U s := by
  have active := extract_of_active hu
  refine ⟨fun _ => ?_, fun offers => ?_, fun offers pos => ?_, fun _ i f hf => ?_⟩
  · have pair := whole_lens (U := U) (r := .of (c.caseR U)) hu fun _ => rfl
    have self := whole_lens (U := U) (r := .of (c.caseW U)) hu fun _ => rfl
    have there : lentMut (.of (c.caseW U)) s = some root.inside := by
      rw [lentMut_eq fun s => c.getMut_caseW U s root, active]
    exact ⟨pair.2, there, pair.1, self.1⟩
  · exact (unwrapped_lens hu closed offers).symm
  · exact (element_lens hu closed offers pos).symm
  · obtain ⟨pair, keeps⟩ := field_lens (U := U) hu fills hf
    refine ⟨keeps, ?_, pair, fun x s' h j other V => other_fields hu keeps h other V⟩
    rw [lentMut_eq fun s => c.getMut_fieldW U s root f.2 i, active, Option.map_some]

end

/-- While another case is active, the accessors of a case find nothing and change nothing. While the case is active,
    what is written through them stays inside it and is read back. -/
theorem write_staysInside (hu : s.get? root = some (.alternative i v)) :
    (i ≠ c.index → ∀ {V : Ty} {e : Erased U V}, c.Declares U e → FindsNothing e s) ∧
    (i = c.index → s.Closed → c.FillsFields v → c.StaysInside U s) := by
  refine ⟨fun other V e declared => findsNothing_of_declares hu other declared, ?_⟩
  rintro rfl closed fills
  exact staysInside hu closed fills

/-- A record with two fields that is active, and a text that is not. -/
theorem write_staysInside_size : ∃ (size name : UnionCase) (s : Store),
    s.get? root = some (.alternative 1 (.items [.int 2, .int 3])) ∧
    size.offersField .failableWritable = true ∧ size.payload.accessibleFields[1]? = some ("height", .plain "int") ∧
    size.StaysInside (.plain "w::Pick") s ∧ name.Declares (.plain "w::Pick") (.of (name.caseW (.plain "w::Pick"))) ∧
    FindsNothing (.of (name.caseW (.plain "w::Pick"))) s := by
  let size : UnionCase := ⟨"size", 1, .record "w::Size" [("width", .plain "int"), ("height", .plain "int")], .all⟩
  let name : UnionCase := ⟨"name", 0, .single (.plain "std::string"), .all⟩
  let s : Store := ⟨[.alternative 1 (.items [.int 2, .int 3])], [], []⟩
  have active : s.get? root = some (.alternative 1 (.items [.int 2, .int 3])) := rfl
  have closed : s.Closed := by
    rintro (j | d) v e hv owns
    · obtain ⟨hj, rfl⟩ := List.getElem?_eq_some_iff.mp hv
      simp [s, Value.owners, Value.ownersIn] at owns
    · cases hv
  have fills : size.FillsFields (.items [.int 2, .int 3]) := by
    intro j hj
    exact ⟨_, List.getElem?_eq_getElem (l := [Value.int 2, Value.int 3]) hj⟩
  have declared : name.Declares (.plain "w::Pick") (.of (name.caseW (.plain "w::Pick"))) :=
    .whole (f := .caseWritable) rfl
  exact ⟨size, name, s, active, rfl, rfl, (size.write_staysInside _ active).2 rfl closed fills, declared,
    (name.write_staysInside _ active).1 (by decide) declared⟩

end UnionCase
end Accessors

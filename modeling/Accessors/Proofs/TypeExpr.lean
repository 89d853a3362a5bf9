import Accessors.Plan.Constructor
import Accessors.Proofs.Classification.Chain
import Accessors.Proofs.Named
import Accessors.TypeExpr.Reader

/-! # Types told apart by what is written of them

A type is written with marks around its arguments and between them. As long as no name has a mark in it, the type is
read back from what is written, whatever nodes are open around it, so it is the only one that is written so. A type
with arguments ends where its bracket closes. No type goes on after that, so it is told even from a text that goes
on. Plans, notices and errors therefore tell which types they are about. -/

namespace Accessors
namespace TypeExpr

/-- What is set between names. -/
def marks : List Char := ['<', '>', ',']

mutual

/-- The names of a type expression, in the order in which they are written. -/
def names : TypeExpr → List String
  | node n as => n :: namesOfAll as

def namesOfAll : List TypeExpr → List String
  | [] => []
  | a :: as => names a ++ namesOfAll as

end

/-- No name has a mark in it. -/
def Unmarked (t : TypeExpr) : Prop := ∀ n ∈ t.names, ∀ c ∈ n.toList, c ∉ marks

instance (t : TypeExpr) : Decidable t.Unmarked :=
  decidable_of_iff (t.names.all fun n => n.toList.all fun c => !marks.contains c) (by simp [Unmarked])

variable {t u p : TypeExpr} {as : List TypeExpr} {n s s' : String}

theorem namesOfAll_eq_flatMap (as : List TypeExpr) : namesOfAll as = as.flatMap names := by
  induction as with
  | nil => rfl
  | cons a as ih => rw [namesOfAll, ih, List.flatMap_cons]

theorem unmarked_node : (node n as).Unmarked ↔ (∀ c ∈ n.toList, c ∉ marks) ∧ ∀ a ∈ as, a.Unmarked := by
  simp only [Unmarked, names, namesOfAll_eq_flatMap, List.forall_mem_cons, List.mem_flatMap, forall_exists_index,
    and_imp]
  exact and_congr_right fun _ => ⟨fun h a ha m hm => h m a ha hm, fun h m a ha hm => h a ha m hm⟩

theorem Unmarked.of_mem_args (h : t.Unmarked) (hp : p ∈ t.args) : p.Unmarked := by
  obtain ⟨n, as⟩ := t
  exact (unmarked_node.mp h).2 p hp

/-! ### Reading what is written -/

/-- What is pending when a type has been read: a bare name can still go on. -/
def Pending.of : TypeExpr → Pending
  | .node n [] => name n.toList.reverse
  | .node n (a :: as) => closed (.node n (a :: as))

@[simp] theorem Pending.node_of (t : TypeExpr) : (of t).node = t := by
  obtain ⟨n, _ | ⟨a, as⟩⟩ := t
  · simp [of, node, atom]
  · rfl

namespace Reader
variable {r r' r'' : Reader} {ns : List OpenNode} {c : Char} {cs : List Char}

/-- Reading a text leads from one state to another. -/
def Leads (s : String) (r r' : Reader) : Prop := s.toList.foldlM step r = some r'

theorem Leads.append (h : Leads s r r') (h' : Leads s' r' r'') : Leads (s ++ s') r r'' := by
  rw [Leads, String.toList_append, List.foldlM_append, h]
  exact h'

theorem step_name (h : c ∉ marks) (cs : List Char) (ns : List OpenNode) :
    step ⟨.name cs, false, ns⟩ c = some ⟨.name (c :: cs), false, ns⟩ := by
  simp only [marks, List.mem_cons, List.not_mem_nil, or_false, not_or] at h
  obtain ⟨opens, closes, separates⟩ := h
  unfold step
  split <;> simp_all

theorem foldlM_step_name (h : ∀ c ∈ cs, c ∉ marks) (before : List Char) (ns : List OpenNode) :
    cs.foldlM step ⟨.name before, false, ns⟩ = some ⟨.name (cs.reverse ++ before), false, ns⟩ := by
  induction cs generalizing before with
  | nil => rfl
  | cons c cs ih =>
    obtain ⟨here, later⟩ := List.forall_mem_cons.mp h
    rw [List.foldlM_cons, step_name here]
    simpa using ih later (c :: before)

theorem leads_name (h : ∀ c ∈ n.toList, c ∉ marks) (ns : List OpenNode) :
    Leads n ⟨.name [], false, ns⟩ ⟨.name n.toList.reverse, false, ns⟩ := by
  rw [Leads, foldlM_step_name h, List.append_nil]

/-- Nothing can follow a closed node outside all others. -/
theorem step_closed (t : TypeExpr) (c : Char) : step ⟨.closed t, false, []⟩ c = none := by
  unfold step
  split <;> simp_all

-- By induction on the type and on the arguments of a node. The states are those of a reader inside any open nodes,
-- since an argument is read inside the node it belongs to and all nodes around that one.
mutual

/-- A type is read to its end. -/
theorem leads_text : ∀ (t : TypeExpr) (ns : List OpenNode), t.Unmarked →
    Leads t.text ⟨.name [], false, ns⟩ ⟨.of t, false, ns⟩
  | .node n [], ns, h => leads_name (unmarked_node.mp h).1 ns
  | .node n (a :: as), ns, h => by
    obtain ⟨name, args⟩ := unmarked_node.mp h
    obtain ⟨first, others⟩ := List.forall_mem_cons.mp args
    have opened : Leads "<" ⟨.name n.toList.reverse, false, ns⟩ ⟨.name [], false, ⟨n, []⟩ :: ns⟩ := by
      simp [Leads, step]
    have inside := leads_text a (⟨n, []⟩ :: ns) first
    have closed := leads_textRest as (.of a) ⟨n, []⟩ ns others
    rw [Pending.node_of] at closed
    exact (((leads_name name ns).append opened).append inside).append closed

/-- The arguments after the first are read up to the bracket that closes the innermost node. -/
theorem leads_textRest : ∀ (as : List TypeExpr) (p : Pending) (n : OpenNode) (ns : List OpenNode),
    (∀ a ∈ as, a.Unmarked) → Leads (textRest as) ⟨p, false, n :: ns⟩
      ⟨.closed (.node n.name (n.args.reverse ++ p.node :: as)), false, ns⟩
  | [], p, n, ns, _ => by simp [Leads, textRest, step]
  | a :: as, p, n, ns, h => by
    obtain ⟨first, others⟩ := List.forall_mem_cons.mp h
    have separated : Leads ", " ⟨p, false, n :: ns⟩ ⟨.name [], false, ⟨n.name, p.node :: n.args⟩ :: ns⟩ := by
      simp [Leads, step]
    have inside := leads_text a (⟨n.name, p.node :: n.args⟩ :: ns) first
    have closed := leads_textRest as (.of a) ⟨n.name, p.node :: n.args⟩ ns others
    rw [Pending.node_of, List.reverse_cons, List.append_assoc] at closed
    exact (separated.append inside).append closed

end

end Reader

open Reader

theorem ofText?_text (h : t.Unmarked) : ofText? t.text = some t := by
  have read : t.text.toList.foldlM step start = some ⟨.of t, false, []⟩ := leads_text t [] h
  rw [ofText?, read]
  exact congrArg some (Pending.node_of t)

theorem eq_of_text_eq (ht : t.Unmarked) (hu : u.Unmarked) (h : t.text = u.text) : t = u := by
  have read : some t = some u := by rw [← ofText?_text ht, h, ofText?_text hu]
  exact Option.some.inj read

/-! ### Wrappers in a longer text -/

-- Were there anything after the end of `t`, the reader would be stuck before it came to the end of `u`.
theorem eq_of_text_begins (ht : t.Unmarked) (hu : u.Unmarked) (wrapper : t.args ≠ [])
    (h : t.text.toList <+: u.text.toList) : t = u := by
  obtain ⟨rest, h⟩ := h
  have whole : u.text.toList.foldlM step ⟨.name [], false, []⟩ = some ⟨.of u, false, []⟩ := leads_text u [] hu
  have part : t.text.toList.foldlM step ⟨.name [], false, []⟩ = some ⟨.closed t, false, []⟩ := by
    obtain ⟨n, _ | ⟨a, as⟩⟩ := t
    · cases wrapper rfl
    · exact leads_text _ [] ht
  rw [← h, List.foldlM_append, part] at whole
  cases rest with
  | nil =>
    rw [List.append_nil] at h
    exact eq_of_text_eq ht hu (String.toList_inj.mp h)
  | cons c rest =>
    have stuck : (c :: rest).foldlM step ⟨.closed t, false, []⟩ = none := by
      rw [List.foldlM_cons, step_closed]
      rfl
    cases stuck.symm.trans whole

/-- A text that begins with a wrapper begins with no other one. -/
theorem text_append_inj (ht : t.Unmarked) (hu : u.Unmarked) (wt : t.args ≠ []) (wu : u.args ≠ [])
    (h : t.text ++ s = u.text ++ s') : t = u ∧ s = s' := by
  have same : t = u := by
    have whole : t.text.toList ++ s.toList = u.text.toList ++ s'.toList := by
      rw [← String.toList_append, h, String.toList_append]
    have begins : u.text.toList <+: t.text.toList ++ s.toList := whole ▸ List.prefix_append _ _
    rcases List.prefix_or_prefix_of_prefix (List.prefix_append _ _) begins with below | below
    · exact eq_of_text_begins ht hu wt below
    · exact (eq_of_text_begins hu ht wu below).symm
  subst same
  exact ⟨rfl, (String.append_right_inj _).mp h⟩

end TypeExpr

open TypeExpr

/-! ### Types in plans, notices and errors -/

namespace Constructor

/-- What stands between the flavor of a constructor and the type of its value. -/
def lead (p : PositionKind) : String := if p = .none then "-> " else "at " ++ p.name ++ " -> "

theorem lead_append_inj {p p' : PositionKind} {s s' : String} (h : lead p ++ s = lead p' ++ s') : p = p' ∧ s = s' := by
  have same : p = p' := by
    cases p <;> cases p' <;> first | rfl | simp [lead, PositionKind.name, String.ext_iff] at h
  subst same
  exact ⟨rfl, (String.append_right_inj _).mp h⟩

theorem text_eq (c : Constructor) :
    c.text = c.name ++ ": " ++ (Named.name c.flavor ++ " " ++ (lead c.parameter ++ c.value.text)) := by
  unfold text lead
  apply String.ext
  split <;> simp [Named.name]

/-- What is written of a constructor after its name tells all the rest of it. -/
theorem eq_of_text_eq {c k : Constructor} (hc : c.value.Unmarked) (hk : k.value.Unmarked) (name : c.name = k.name)
    (h : c.text = k.text) : c = k := by
  rw [text_eq, text_eq, name] at h
  obtain ⟨flavor, h⟩ := Named.name_append_inj ((String.append_right_inj _).mp h)
  obtain ⟨parameter, h⟩ := lead_append_inj h
  have value := TypeExpr.eq_of_text_eq hc hk h
  obtain ⟨_, _, _, _⟩ := c
  cases name
  cases flavor
  cases parameter
  cases value
  rfl

end Constructor

section
variable {t u : TypeExpr} {own own' : Classification} {catalog catalog' : Catalog}

theorem text_opaqueNotice (t : TypeExpr) (own : Classification) : (opaqueNotice t own).text =
    t.text ++ (": treating " ++ (own.inner.text ++ " as opaque inside" ++ " " ++ Named.name own.shape)) := by
  apply String.ext
  simp [opaqueNotice, Named.name]

/-- A notice about a wrapper and its payload tells both. -/
theorem opaqueNotice_inj (ht : t.Unmarked) (hu : u.Unmarked) (payload : catalog.payload? t = some own.inner)
    (payload' : catalog'.payload? u = some own'.inner) (h : opaqueNotice t own = opaqueNotice u own') :
    t = u ∧ own.inner = own'.inner ∧ own.shape = own'.shape := by
  have arg := Catalog.mem_args_of_payload? payload
  have arg' := Catalog.mem_args_of_payload? payload'
  have texts := congrArg Record.text h
  rw [text_opaqueNotice, text_opaqueNotice] at texts
  obtain ⟨wrapper, rest⟩ := text_append_inj ht hu (List.ne_nil_of_mem arg) (List.ne_nil_of_mem arg') texts
  obtain ⟨inner, shape⟩ := Named.append_name_inj ((String.append_right_inj _).mp rest)
  have inner := eq_of_text_eq (ht.of_mem_args arg) (hu.of_mem_args arg') ((String.append_left_inj _).mp inner)
  exact ⟨wrapper, inner, shape⟩

theorem nestedTooDeeply_message_inj (ht : t.Unmarked) (hu : u.Unmarked)
    (h : (Defect.nestedTooDeeply t).message = (Defect.nestedTooDeeply u).message) : t = u :=
  eq_of_text_eq ht hu ((String.append_right_inj _).mp h)

/-- Two types are told apart by what is written of them. -/
structure ToldApart (t u : TypeExpr) : Prop where
  text : t.text = u.text → t = u
  /-- Constructors of one name that read the same in a plan are the same. -/
  planned : ∀ c k : Constructor, c.value = t → k.value = u → c.name = k.name → c.text = k.text → c = k
  /-- Notices that read the same are about one wrapper and one payload. -/
  noticed : ∀ (catalog catalog' : Catalog) (own own' : Classification), catalog.payload? t = some own.inner →
    catalog'.payload? u = some own'.inner → opaqueNotice t own = opaqueNotice u own' →
      t = u ∧ own.inner = own'.inner ∧ own.shape = own'.shape
  refused : (Defect.nestedTooDeeply t).message = (Defect.nestedTooDeeply u).message → t = u

/-- Types without marks in their names are told apart wherever they are written. -/
theorem unmarked_toldApart (ht : t.Unmarked) (hu : u.Unmarked) : ToldApart t u where
  text := eq_of_text_eq ht hu
  planned c k hc hk := by
    subst hc hk
    exact Constructor.eq_of_text_eq ht hu
  noticed _ _ _ _ payload payload' := opaqueNotice_inj ht hu payload payload'
  refused := nestedTooDeeply_message_inj ht hu

/-- Two nodes without a name, one with a nameless node among its arguments and one with a blank name there. -/
theorem unmarked_toldApart_blank :
    (node "" [node "" [atom ""], atom " "]).Unmarked ∧ (node "" [node "" [atom " "], atom ""]).Unmarked ∧
    ToldApart (node "" [node "" [atom ""], atom " "]) (node "" [node "" [atom " "], atom ""]) ∧
    (node "" [node "" [atom ""], atom " "]).text = "<<>,  >" ∧
    (node "" [node "" [atom " "], atom ""]).text = "<< >, >" :=
  ⟨by decide, by decide, unmarked_toldApart (by decide) (by decide), rfl, rfl⟩

/-- With a mark in a name, one argument reads as two. -/
example : (node "std::pair" [atom "int, int"]).text = (node "std::pair" [atom "int", atom "int"]).text := rfl

end
end Accessors

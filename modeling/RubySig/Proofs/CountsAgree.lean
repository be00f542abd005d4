import RubySig.Proofs.LocationsNested
import RubySig.Proofs.Outline.Layered

/-!
Walks and counts. The nodes of a tree are those that are reached from its root through the nodes
right below each node, a node before what is below it. A walk visits all of them in this order
though it stops at some kinds of nodes, and a count counts all of them though it stops earlier.
-/
namespace RubySig

/-- The kinds of nodes that are counted, and the names of their numbers. -/
def countedKinds : List (NodeKind × String) :=
  [(.classDecl, "classes"), (.moduleDecl, "modules"), (.interfaceDecl, "interfaces"),
    (.constantDecl, "constants"), (.globalDecl, "globals"), (.typeAliasDecl, "type_aliases"),
    (.method, "methods"), (.overload, "overloads")]

namespace NodeKind

theorem tally?_eq_some_iff {kind : NodeKind} {name : String} :
    kind.tally? = some name ↔ (kind, name) ∈ countedKinds := by
  cases kind <;> simp [tally?, countedKinds, eq_comm]

theorem tally?_eq_lookup (kind : NodeKind) : kind.tally? = countedKinds.lookup kind := by
  cases kind <;> rfl

/-- Different kinds are counted under different names. -/
theorem tally?_inj {kind other : NodeKind} {name : String} (h : kind.tally? = some name)
    (h' : other.tally? = some name) : kind = other := by
  cases kind <;> cases h <;> cases other <;> first | rfl | simp [tally?] at h'

end NodeKind

namespace Outline

theorem itemNodes_eq_flatMap (os : List Outline) : itemNodes os = os.flatMap nodes := by
  induction os with
  | nil => rfl
  | cons o os ih => rw [itemNodes, ih, List.flatMap_cons]

theorem fieldNodes_eq_flatMap (fields : List (String × Outline)) :
    fieldNodes fields = fields.flatMap fun f => f.2.nodes := by
  induction fields with
  | nil => rfl
  | cons f fields ih => rw [fieldNodes, ih, List.flatMap_cons]

theorem nodes_of_flat {o : Outline} (h : o.isFlat = true) (hnode : ¬ o.isNode = true) :
    o.nodes = [] := by
  cases o with
  | scalar | choice | notes => rfl
  | list | table => cases h
  | node => exact absurd rfl hnode

theorem flatMap_filter_isNode {os : List Outline} (h : ∀ o ∈ os, o.isFlat = true) :
    (os.filter isNode).flatMap nodes = os.flatMap nodes := by
  induction os with
  | nil => rfl
  | cons o os ih =>
    obtain ⟨ho, hos⟩ := List.forall_mem_cons.mp h
    rw [List.filter_cons, List.flatMap_cons]
    split
    next hnode => rw [List.flatMap_cons, ih hos]
    next hnode => rw [ih hos, nodes_of_flat ho hnode, List.nil_append]

variable {layer : Layer} {o : Outline}

theorem Layered.nodes_eq_held (h : Layered layer o) : o.nodes = (held o).flatMap nodes := by
  cases h with
  | scalar | choice | notes => rfl
  | list hflat => rw [nodes, held, itemNodes_eq_flatMap, flatMap_filter_isNode hflat]
  | table hflat =>
    rw [nodes, held, fieldNodes_eq_flatMap, flatMap_filter_isNode (List.forall_mem_map.mpr hflat),
      List.flatMap_map]
  | node => rw [held, List.flatMap_singleton]

/-- The nodes of a node are itself and those of the nodes right below it. -/
theorem Layered.nodes_eq_children (h : Layered layer o) (hnode : o.isNode = true) :
    ∃ below, o.children = .ok below ∧ o.nodes = o :: below.flatMap nodes := by
  cases h with
  | @node _ kind location lead fields _ _ hfields =>
    refine ⟨_, rfl, ?_⟩
    rw [nodes, fieldNodes_eq_flatMap, List.flatMap_assoc, List.flatMap_congr]
    exact fun f hf => (hfields f hf).nodes_eq_held
  | _ => cases hnode

/-- All nodes of a value are in some layer of it. -/
theorem Layered.forall_nodes (h : Layered layer o) :
    ∀ n ∈ o.nodes, n.isNode = true ∧ ∃ inner, Layered inner n := by
  induction h with
  | scalar | choice | notes => simp [nodes]
  | list _ _ ih =>
    rw [nodes, itemNodes_eq_flatMap, List.forall_mem_flatMap]
    exact ih
  | table _ _ ih =>
    rw [nodes, fieldNodes_eq_flatMap, List.forall_mem_flatMap]
    exact ih
  | node hkind hallowed hfields ih =>
    rw [nodes, fieldNodes_eq_flatMap, List.forall_mem_cons, List.forall_mem_flatMap]
    exact ⟨⟨rfl, _, .node hkind hallowed hfields⟩, ih⟩

/-- What a walk keeps of a node. -/
def visit? : Outline → Option Visit
  | .node kind location lead _ => some ⟨kind, location, lead⟩
  | _ => none

def kind? (o : Outline) : Option NodeKind := o.visit?.map (·.kind)

theorem isSome_visit? {o : Outline} (h : o.isNode = true) : o.visit?.isSome = true := by
  cases o <;> first | rfl | cases h

theorem map_some_filterMap {α β : Type} {g : α → Option β} {as : List α}
    (h : ∀ a ∈ as, (g a).isSome = true) : (as.filterMap g).map some = as.map g := by
  induction as with
  | nil => rfl
  | cons a as ih =>
    obtain ⟨ha, has⟩ := List.forall_mem_cons.mp h
    obtain ⟨b, hb⟩ := Option.isSome_iff_exists.mp ha
    rw [List.filterMap_cons_some hb, List.map_cons, List.map_cons, ih has, hb]

section Walks

variable {β : Type} {f : Visit → Option β} {stop : NodeKind → Bool}

def seen (f : Visit → Option β) (n : Outline) : Option β := n.visit?.bind f

/-- Nothing is seen of the nodes in a layer. -/
def Layer.Hides (layer : Layer) (f : Visit → Option β) : Prop :=
  ∀ v, layer.Allows v.kind → f v = none

theorem Layered.hidden (h : Layered layer o) (hhides : layer.Hides f) :
    o.nodes.filterMap (seen f) = [] := by
  induction h with
  | scalar | choice | notes => rfl
  | list _ _ ih =>
    rw [nodes, itemNodes_eq_flatMap, List.filterMap_flatMap, List.flatMap_eq_nil_iff]
    exact fun o ho => ih o ho hhides
  | table _ _ ih =>
    rw [nodes, fieldNodes_eq_flatMap, List.filterMap_flatMap, List.flatMap_eq_nil_iff]
    exact fun e he => ih e he hhides
  | @node _ kind location lead fields _ hallowed _ ih =>
    have hbelow : (Layer.below _ kind).Hides f := fun v hv => hhides v (hallowed.of_below hv)
    have hfirst : seen f (.node kind location lead fields) = none := hhides _ hallowed
    rw [nodes, fieldNodes_eq_flatMap, List.filterMap_cons_none hfirst, List.filterMap_flatMap,
      List.flatMap_eq_nil_iff]
    exact fun e he => ih e he hbelow

/-- A walk gives what is to be seen of some nodes. -/
def Shows (f : Visit → Option β) (walk : Except TreeFault (List Visit)) (ns : List Outline) :
    Prop :=
  ∃ vs, walk = .ok vs ∧ vs.filterMap f = ns.filterMap (seen f)

theorem shows_items {os : List Outline} (h : ∀ o ∈ os, Shows f (visitsBelow stop false o) o.nodes) :
    Shows f (visitsInItems stop os) (itemNodes os) := by
  induction os with
  | nil => exact ⟨[], rfl, rfl⟩
  | cons o os ih =>
    obtain ⟨hfirst, hrest⟩ := List.forall_mem_cons.mp h
    obtain ⟨vs, hvs, hseen⟩ := hfirst
    obtain ⟨ws, hws, hseen'⟩ := ih hrest
    refine ⟨vs ++ ws, ?_, ?_⟩
    · rw [visitsInItems, hvs, hws]
      rfl
    · rw [itemNodes, List.filterMap_append, List.filterMap_append, hseen, hseen']

theorem shows_fields {opened : Bool} {fields : List (String × Outline)}
    (h : ∀ e ∈ fields, Shows f (visitsBelow stop opened e.2) e.2.nodes) :
    Shows f (visitsInFields stop opened fields) (fieldNodes fields) := by
  induction fields with
  | nil => exact ⟨[], rfl, rfl⟩
  | cons e fields ih =>
    obtain ⟨hfirst, hrest⟩ := List.forall_mem_cons.mp h
    obtain ⟨vs, hvs, hseen⟩ := hfirst
    obtain ⟨ws, hws, hseen'⟩ := ih hrest
    refine ⟨vs ++ ws, ?_, ?_⟩
    · rw [visitsInFields, hvs, hws]
      rfl
    · rw [fieldNodes, List.filterMap_append, List.filterMap_append, hseen, hseen']

/-- A walk that stops where nothing is to be seen below shows all there is to be seen. -/
theorem Layered.shows (hstop : ∀ layer kind, stop kind = true → (Layer.below layer kind).Hides f)
    (h : Layered layer o) : ∀ opened, opened = true ∨ o.isFlat = true →
      Shows f (visitsBelow stop opened o) o.nodes := by
  induction h with
  | scalar | choice | notes => exact fun _ _ => ⟨[], rfl, rfl⟩
  | list hflat _ ih =>
    rintro opened (rfl | hno)
    · exact shows_items fun o ho => ih o ho false (.inr (hflat o ho))
    · cases hno
  | table hflat _ ih =>
    rintro opened (rfl | hno)
    · exact shows_fields fun e he => ih e he false (.inr (hflat e he))
    · cases hno
  | @node layer kind location lead fields hkind hallowed hfields ih =>
    intro opened _
    rw [visitsBelow, hkind]
    by_cases hstops : stop kind = true
    · have hhidden : (fieldNodes fields).filterMap (seen f) = [] := by
        rw [fieldNodes_eq_flatMap, List.filterMap_flatMap, List.flatMap_eq_nil_iff]
        exact fun e he => (hfields e he).hidden (hstop layer kind hstops)
      refine ⟨_, if_pos hstops, ?_⟩
      rw [nodes, List.filterMap_cons, List.filterMap_cons, hhidden]
      rfl
    · obtain ⟨vs, hvs, hseen⟩ := shows_fields fun e he => ih e he true (.inl rfl)
      refine ⟨⟨kind, location, lead⟩ :: vs, ?_, ?_⟩
      · rw [if_neg Bool.false_ne_true, if_neg hstops, hvs]
        rfl
      · rw [nodes, List.filterMap_cons, List.filterMap_cons, hseen]
        rfl

end Walks

/-- A walk meets all nodes, in their order. -/
theorem Layered.walk_eq (h : Layered layer o) (hnode : o.isNode = true) :
    ∃ vs, o.walk = .ok vs ∧ o.nodes.map visit? = vs.map some := by
  have hstop : ∀ layer kind, kind.isLeaf = true → (Layer.below layer kind).Hides some := by
    intro layer kind hleaf v hv
    rw [Layer.below, if_pos hleaf] at hv
    exact hv.elim
  obtain ⟨vs, hvs, hseen⟩ := h.shows hstop false (.inr (isFlat_of_isNode hnode))
  refine ⟨vs, ?_, ?_⟩
  · rw [walk, visits, if_pos hnode, hvs]
  · have hvisit : seen some = visit? := funext fun n => n.visit?.bind_fun_some
    rw [List.filterMap_some, hvisit] at hseen
    rw [hseen, map_some_filterMap]
    intro n hn
    exact isSome_visit? (h.forall_nodes n hn).1

/-- A name behind others stays only if it is new. -/
theorem eraseDups_snoc (names : List String) (name : String) :
    (names ++ [name]).eraseDups =
      if name ∈ names then names.eraseDups else names.eraseDups ++ [name] := by
  have hsingle : [name].eraseDups = [name] := rfl
  rw [List.eraseDups_append, List.cons_removeAll]
  by_cases h : name ∈ names <;> simp [h, hsingle]

theorem nodup_eraseDups (names : List String) : names.eraseDups.Nodup := by
  induction names using List.reverseRecOn with
  | nil => exact .nil
  | append_singleton names name ih =>
    rw [eraseDups_snoc]
    split
    · exact ih
    next hnew =>
      refine List.nodup_append.mpr ⟨ih, by simp, ?_⟩
      rintro other hother _ hmem rfl
      obtain rfl := List.mem_singleton.mp hmem
      exact hnew (List.mem_eraseDups.mp hother)

/-- One more of a name changes no other number. -/
theorem map_count_other {name : String} {names : List String} (h : name ∉ names)
    (count : String → Nat) :
    (names.map fun n => (n, count n + [name].count n)) = names.map fun n => (n, count n) := by
  apply List.map_congr_left
  intro n hn
  have hother : [name].count n = 0 := by
    rw [List.count_eq_zero, List.mem_singleton]
    rintro rfl
    exact h hn
  rw [hother, Nat.add_zero]

/-- A new name comes last. -/
theorem increment_new {name : String} {counts : List (String × Nat)} (h : name ∉ counts.map (·.1)) :
    increment name counts = counts ++ [(name, 1)] := by
  induction counts with
  | nil => rfl
  | cons entry counts ih =>
    obtain ⟨hentry, hcounts⟩ := not_or.mp (mt List.mem_cons.mpr h)
    rw [increment, if_neg (by simpa using Ne.symm hentry), ih hcounts, List.cons_append]

/-- The entry of a name that has one stays where it is. -/
theorem increment_old {name : String} {names : List String} (hnames : names.Nodup)
    (h : name ∈ names) (count : String → Nat) : increment name (names.map fun n => (n, count n)) =
      names.map fun n => (n, count n + [name].count n) := by
  induction names with
  | nil => cases h
  | cons first names ih =>
    obtain ⟨hfirst, hnames⟩ := List.nodup_cons.mp hnames
    rw [List.map_cons, List.map_cons, increment]
    by_cases heq : first = name
    · subst heq
      rw [if_pos (beq_self_eq_true first), map_count_other hfirst, List.count_singleton_self]
    · have hmem : name ∈ names := (List.mem_cons.mp h).resolve_left (Ne.symm heq)
      rw [if_neg (by simpa using heq), ih hnames hmem]
      simp [List.count_singleton, Ne.symm heq]

/-- Each name that occurs is counted once, where it occurs first, with the number of its
occurrences. -/
theorem tally_eq (names : List String) :
    tally names = names.eraseDups.map fun name => (name, names.count name) := by
  induction names using List.reverseRecOn with
  | nil => rfl
  | append_singleton names name ih =>
    rw [tally, List.foldl_append, ← tally, ih, List.foldl_cons, List.foldl_nil, eraseDups_snoc]
    simp only [List.count_append]
    by_cases h : name ∈ names
    · rw [if_pos h, increment_old (nodup_eraseDups names) (List.mem_eraseDups.mpr h)]
    · have hnew : name ∉ names.eraseDups := mt List.mem_eraseDups.mp h
      rw [if_neg h, increment_new (by simpa using h), List.map_append, List.map_singleton,
        map_count_other hnew, List.count_eq_zero.mpr h, List.count_singleton_self]

example : tally ["classes", "methods", "classes"] = [("classes", 2), ("methods", 1)] := by decide

/-- The name under which a node is counted. -/
def tally? (o : Outline) : Option String := o.kind?.bind NodeKind.tally?

structure Numbers (ns : List Outline) (counts : List (String × Nat)) : Prop where
  /-- Each of the eight kinds that occurs has its number, and there are no other entries. -/
  number : ∀ name n, (name, n) ∈ counts ↔ ∃ kind, (kind, name) ∈ countedKinds ∧
    n = (ns.countP fun o => decide (o.kind? = some kind)) ∧ 0 < n
  /-- The entries come in the order of the first nodes of their kinds. -/
  order : counts.map (·.1) = (ns.filterMap fun o => o.kind?.bind (countedKinds.lookup ·)).eraseDups

theorem tally?_eq_iff {kind : NodeKind} {name : String} (h : kind.tally? = some name)
    (o : Outline) : o.tally? = some name ↔ o.kind? = some kind := by
  rw [tally?, Option.bind_eq_some_iff]
  constructor
  · rintro ⟨other, hother, hname⟩
    rw [hother, NodeKind.tally?_inj hname h]
  · exact fun hkind => ⟨kind, hkind, h⟩

/-- A name is counted as often as there are nodes of its kind. -/
theorem count_tally {kind : NodeKind} {name : String} (h : kind.tally? = some name)
    (ns : List Outline) :
    (ns.filterMap tally?).count name = ns.countP fun o => decide (o.kind? = some kind) := by
  rw [List.count, List.countP_filterMap]
  apply List.countP_congr
  intro o _
  rw [decide_eq_true_iff, ← tally?_eq_iff h o]
  cases o.tally? <;> simp

theorem numbers_tally (ns : List Outline) : Numbers ns (tally (ns.filterMap tally?)) := by
  have hentry (name : String) (n : Nat) : (name, n) ∈ tally (ns.filterMap tally?) ↔
      n = (ns.filterMap tally?).count name ∧ 0 < n := by
    rw [tally_eq, List.mem_map]
    constructor
    · rintro ⟨other, hother, heq⟩
      cases heq
      exact ⟨rfl, List.count_pos_iff.mpr (List.mem_eraseDups.mp hother)⟩
    · rintro ⟨rfl, hpos⟩
      exact ⟨name, List.mem_eraseDups.mpr (List.count_pos_iff.mp hpos), rfl⟩
  constructor
  · intro name n
    rw [hentry]
    constructor
    · rintro ⟨rfl, hpos⟩
      obtain ⟨o, -, ho⟩ := List.mem_filterMap.mp (List.count_pos_iff.mp hpos)
      obtain ⟨kind, -, hkind⟩ := Option.bind_eq_some_iff.mp ho
      exact ⟨kind, NodeKind.tally?_eq_some_iff.mp hkind, count_tally hkind ns, hpos⟩
    · rintro ⟨kind, hkind, hn, hpos⟩
      exact ⟨hn.trans (count_tally (NodeKind.tally?_eq_some_iff.mpr hkind) ns).symm, hpos⟩
  · rw [tally_eq, List.map_map]
    have htally : (fun o : Outline => o.kind?.bind (countedKinds.lookup ·)) = tally? := by
      funext o
      rw [tally?, funext NodeKind.tally?_eq_lookup]
    rw [htally]
    exact List.map_id _

/-- A count counts all nodes of each kind. -/
theorem Layered.counts_eq (h : Layered layer o) (hnode : o.isNode = true) :
    o.counts = .ok (tally (o.nodes.filterMap tally?)) := by
  have hstop : ∀ layer kind, kind.endsCount = true →
      (Layer.below layer kind).Hides fun v => v.kind.tally? := by
    intro layer kind hends v hv
    rw [Layer.below, if_pos hends] at hv
    split at hv
    · exact hv.elim
    · exact hv
  obtain ⟨vs, hvs, hseen⟩ := h.shows hstop false (.inr (isFlat_of_isNode hnode))
  have htally : seen (fun v => v.kind.tally?) = tally? := by
    funext n
    rw [seen, tally?, kind?, Option.bind_map]
    rfl
  rw [counts, visits, if_pos hnode, hvs, ← htally, ← hseen]
  rfl

end Outline

open Outline

/-- The nodes of a tree are those that are reached through the nodes right below each, a walk visits
just these in their order, and a count gives their numbers. -/
theorem counts_agree (root : Root) :
    (∀ n ∈ root.outline.nodes, ∃ below, n.children = .ok below ∧
      n.nodes = n :: below.flatMap nodes) ∧
    (∃ visits, root.outline.walk = .ok visits ∧ root.outline.nodes.map visit? = visits.map some) ∧
    ∃ counts, root.outline.counts = .ok counts ∧ Numbers root.outline.nodes counts := by
  have hlayered := root.layered
  refine ⟨?_, hlayered.walk_eq rfl, ?_⟩
  · intro n hn
    obtain ⟨hnode, inner, hinner⟩ := hlayered.forall_nodes n hn
    exact hinner.nodes_eq_children hnode
  · exact ⟨_, hlayered.counts_eq rfl, numbers_tally root.outline.nodes⟩

/-- A file with declarations of all kinds, one of them in another, and a method with two
signatures. -/
def countedText : String :=
  "module M\n  class A\n    def m: (A) -> void\n         | -> A\n    def n: -> A\n  end\nend\n" ++
  "$g: A\nT: A\nU: A\ntype t = A\ninterface _I\nend\n"

def countedNumbers : List (String × Nat) :=
  [("modules", 1), ("classes", 1), ("methods", 2), ("overloads", 3), ("globals", 1),
    ("constants", 2),
    ("type_aliases", 1), ("interfaces", 1)]

theorem counts_agree_sample : ∃ root, (Root.read countedText).result = .ok root ∧
    root.outline.counts = .ok countedNumbers ∧ Numbers root.outline.nodes countedNumbers := by
  have hread : (Root.read countedText).result.toOption.map (·.outline.counts.toOption) =
      some (some countedNumbers) := by
    decide +kernel
  obtain ⟨root, hroot, hcounts⟩ := Option.map_eq_some_iff.mp hread
  obtain ⟨-, -, counts, hok, hnumbers⟩ := counts_agree root
  rw [hok] at hcounts
  cases hcounts
  refine ⟨root, ?_, hok, hnumbers⟩
  cases hresult : (Root.read countedText).result with
  | error e =>
    rw [hresult] at hroot
    cases hroot
  | ok other =>
    rw [hresult] at hroot
    cases hroot
    rfl

end RubySig

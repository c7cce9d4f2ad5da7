import Dang.Foundations.Outcome
import Mathlib.Data.List.Nodup
import Mathlib.Data.Nat.Notation
import Mathlib.Logic.Function.Basic

/-!
# Registries

The singly linked lists in which `vm.c` keeps the contexts and `symboltable.c` the
symbol tables. Both put an entry in front and search for it by the same code when it
is taken out. Addresses are natural numbers, with zero for the null pointer.
-/

namespace Dang

/-- `vm_context_registry_node_t` and `symboltable_registry_node_t` -/
structure RegistryNode where
  /-- `m_context`, or `m_table`. -/
  entry : ℕ
  next : ℕ
  deriving DecidableEq, Repr

/-- The nodes in storage, at their addresses. -/
abbrev RegistryNodes := ℕ → Option RegistryNode

/-- `_vm_context_registry` and `_symboltable_registry`, with the nodes in storage. -/
structure Registry where
  head : ℕ
  nodes : RegistryNodes

/-- Following a pointer to a node. -/
def RegistryNodes.read (nodes : RegistryNodes) (address : ℕ) : Outcome RegistryNode :=
  match nodes address with
  | some node => .ok node
  | none => .error .invalidAccess

/-- The loop that searches behind the first node. -/
def RegistryNodes.removeLater (entry : ℕ) : ℕ → ℕ → RegistryNodes → Outcome RegistryNodes
  | 0, _, _ => .error .outOfFuel
  | fuel + 1, i, nodes =>
      if i = 0 then .ok nodes
      else do
        let node ← nodes.read i
        if node.next = 0 then .ok nodes
        else do
          let reg ← nodes.read node.next
          if reg.entry = entry then
            removeLater entry fuel reg.next
              (Function.update (Function.update nodes i (some ⟨node.entry, reg.next⟩)) node.next none)
          else removeLater entry fuel node.next nodes

namespace Registry

/-- An empty registry. -/
def empty : Registry := ⟨0, fun _ => none⟩

/-- A node is put in front, in storage that `calloc` has returned. -/
def insert (address entry : ℕ) (registry : Registry) : Registry where
  head := address
  nodes := Function.update registry.nodes address (some ⟨entry, registry.head⟩)

/-- The node of an entry is taken out. -/
def remove (fuel entry : ℕ) (registry : Registry) : Outcome Registry :=
  if registry.head = 0 then .ok registry
  else do
    let reg ← registry.nodes.read registry.head
    if reg.entry = entry then
      .ok ⟨reg.next, Function.update registry.nodes registry.head none⟩
    else do
      let nodes ← registry.nodes.removeLater entry fuel registry.head
      .ok { registry with nodes := nodes }

/-- Several entries are taken out in turn. -/
def removeAll (fuel : ℕ) (taken : List ℕ) (registry : Registry) : Outcome Registry :=
  taken.foldlM (fun registry entry => registry.remove fuel entry) registry

end Registry

/-- Following the nodes from an address visits the members, each with its address, and then
reaches the null pointer. -/
def RegistryNodes.LinksFrom (nodes : RegistryNodes) : ℕ → List (ℕ × ℕ) → Prop
  | head, [] => head = 0
  | head, (address, entry) :: rest =>
      head = address ∧ address ≠ 0 ∧
        ∃ next, nodes address = some ⟨entry, next⟩ ∧ nodes.LinksFrom next rest

namespace RegistryNodes

variable {nodes : RegistryNodes} {head : ℕ} {members : List (ℕ × ℕ)}

/-- Only the nodes that are visited matter. -/
theorem LinksFrom.congr {nodes' : RegistryNodes} (links : nodes.LinksFrom head members)
    (agree : ∀ address ∈ members.map Prod.fst, nodes' address = nodes address) :
    nodes'.LinksFrom head members := by
  induction members generalizing head with
  | nil => exact links
  | cons first rest ih =>
      rcases links with ⟨same, nonzero, next, live, later⟩
      refine ⟨same, nonzero, next, ?_, ih later fun address mem => ?_⟩
      · rw [agree first.1 List.mem_cons_self]
        exact live
      · exact agree address (List.mem_cons_of_mem _ mem)

/-- The nodes that are visited are in storage. -/
theorem LinksFrom.live {address : ℕ} (links : nodes.LinksFrom head members)
    (mem : address ∈ members.map Prod.fst) : nodes address ≠ none := by
  induction members generalizing head with
  | nil => simp at mem
  | cons first rest ih =>
      rcases links with ⟨_, _, next, live, later⟩
      rcases List.mem_cons.mp mem with rfl | inRest
      · simp [live]
      · exact ih later inRest

theorem LinksFrom.unique {others : List (ℕ × ℕ)} (links : nodes.LinksFrom head members)
    (linksOthers : nodes.LinksFrom head others) : members = others := by
  induction members generalizing head others with
  | nil =>
      cases others with
      | nil => rfl
      | cons first rest => exact absurd (linksOthers.1.symm.trans links) linksOthers.2.1
  | cons first rest ih =>
      rcases links with ⟨same, nonzero, next, live, later⟩
      cases others with
      | nil => exact absurd (same.symm.trans linksOthers) nonzero
      | cons first' rest' =>
          rcases linksOthers with ⟨same', _, next', live', later'⟩
          have address : first.1 = first'.1 := same.symm.trans same'
          rw [address] at live
          rcases RegistryNode.mk.inj (Option.some.inj (live.symm.trans live')) with ⟨entry, rfl⟩
          rw [ih later later', Prod.ext address entry]

/-- Without another node of the entry, the loop leaves the nodes alone. -/
theorem removeLater_absent {entry fuel : ℕ} (links : nodes.LinksFrom head members)
    (absent : ∀ member ∈ members, member.2 ≠ entry) (enough : members.length < fuel) :
    nodes.removeLater entry fuel head = .ok nodes := by
  induction members generalizing head fuel with
  | nil =>
      obtain ⟨fuel, rfl⟩ : ∃ rest, fuel = rest + 1 := ⟨fuel - 1, by simp at enough; omega⟩
      exact if_pos links
  | cons first rest ih =>
      obtain ⟨fuel, rfl⟩ : ∃ rest, fuel = rest + 1 := ⟨fuel - 1, by simp at enough; omega⟩
      rcases links with ⟨rfl, nonzero, next, live, later⟩
      have reads : nodes.read first.1 = .ok ⟨first.2, next⟩ := by rw [read, live]
      simp only [removeLater, if_neg nonzero, reads, Outcome.ok_bind]
      cases rest with
      | nil => exact if_pos later
      | cons second others =>
          have shorter : (second :: others).length < fuel := by
            simp only [List.length_cons] at enough ⊢
            omega
          have continues := ih later (fun member mem => absent member (List.mem_cons_of_mem _ mem))
            shorter
          rcases later with ⟨rfl, nonzero', next', live', _⟩
          have reads' : nodes.read second.1 = .ok ⟨second.2, next'⟩ := by rw [read, live']
          have other : second.2 ≠ entry :=
            absent second (List.mem_cons_of_mem _ List.mem_cons_self)
          rw [if_neg nonzero', reads', Outcome.ok_bind, if_neg other]
          exact continues

/-- The loop takes out the node of the entry behind the first, and touches no other list. -/
theorem removeLater_eq_ok {entry fuel : ℕ} (links : nodes.LinksFrom head members)
    (distinct : (members.map Prod.fst).Nodup) (once : (members.map Prod.snd).Nodup)
    (notFirst : ∀ first ∈ members.head?, first.2 ≠ entry) (enough : members.length < fuel) :
    ∃ after, nodes.removeLater entry fuel head = .ok after ∧
      after.LinksFrom head (members.filter fun member => member.2 ≠ entry) ∧
      ∀ address, address ∉ members.map Prod.fst → after address = nodes address := by
  induction members generalizing head fuel with
  | nil =>
      refine ⟨nodes, removeLater_absent links (by simp) enough, links, fun _ _ => rfl⟩
  | cons first rest ih =>
      obtain ⟨fuel, rfl⟩ : ∃ rest, fuel = rest + 1 := ⟨fuel - 1, by simp at enough; omega⟩
      have keepsFirst : first.2 ≠ entry := notFirst first rfl
      rcases links with ⟨rfl, nonzero, next, live, later⟩
      have reads : nodes.read first.1 = .ok ⟨first.2, next⟩ := by rw [read, live]
      rcases List.nodup_cons.mp distinct with ⟨apart, distinctRest⟩
      rcases List.nodup_cons.mp once with ⟨_, onceRest⟩
      simp only [removeLater, if_neg nonzero, reads, Outcome.ok_bind]
      rw [List.filter_cons_of_pos (by simpa using keepsFirst)]
      cases rest with
      | nil => exact ⟨nodes, if_pos later, ⟨rfl, nonzero, next, live, later⟩, fun _ _ => rfl⟩
      | cons second others =>
          have linked := later
          rcases later with ⟨rfl, nonzero', next', live', later'⟩
          have reads' : nodes.read second.1 = .ok ⟨second.2, next'⟩ := by rw [read, live']
          have shorter : (second :: others).length < fuel := by
            simp only [List.length_cons] at enough ⊢
            omega
          rw [if_neg nonzero', reads', Outcome.ok_bind]
          by_cases found : second.2 = entry
          · -- the entry occurs no more, so that the loop goes on to the end
            have absent : ∀ member ∈ others, member.2 ≠ entry := by
              intro member mem same
              apply (List.nodup_cons.mp onceRest).1
              rw [found, ← same]
              exact List.mem_map_of_mem mem
            have headApart : first.1 ≠ second.1 := by
              intro same
              apply apart
              rw [same]
              exact List.mem_cons_self
            obtain ⟨after, unlinked⟩ : ∃ after : RegistryNodes, Function.update
              (Function.update nodes first.1 (some ⟨first.2, next'⟩)) second.1 none = after :=
              ⟨_, rfl⟩
            have linkedLater : after.LinksFrom next' others := by
              apply later'.congr
              intro address mem
              rw [← unlinked, Function.update_of_ne, Function.update_of_ne]
              · rintro rfl
                exact apart (List.mem_cons_of_mem _ mem)
              · rintro rfl
                exact (List.nodup_cons.mp distinctRest).1 mem
            refine ⟨after, ?_, ?_, ?_⟩
            · rw [if_pos found, unlinked]
              exact removeLater_absent linkedLater absent
                (by simp only [List.length_cons] at shorter; omega)
            · rw [List.filter_cons_of_neg (by simpa using found), List.filter_eq_self.mpr]
              · refine ⟨rfl, nonzero, next', ?_, linkedLater⟩
                rw [← unlinked, Function.update_of_ne headApart, Function.update_self]
              · intro member mem
                simpa using absent member mem
            · intro address outside
              simp only [List.map_cons, List.mem_cons, not_or] at outside
              rw [← unlinked, Function.update_of_ne outside.2.1, Function.update_of_ne outside.1]
          · rcases ih linked distinctRest onceRest
              (fun one same => Option.some.inj same ▸ found) shorter with
              ⟨after, removes, links, frame⟩
            refine ⟨after, ?_, ⟨rfl, nonzero, second.1, ?_, links⟩, ?_⟩
            · rw [if_neg found]
              exact removes
            · rw [frame _ apart]
              exact live
            · intro address outside
              exact frame address fun mem => outside (List.mem_cons_of_mem _ mem)

end RegistryNodes

namespace Registry

/-- The registry holds the entries, the first one first. -/
def Lists (registry : Registry) (entries : List ℕ) : Prop :=
  ∃ members : List (ℕ × ℕ), registry.nodes.LinksFrom registry.head members ∧
    (members.map Prod.fst).Nodup ∧ members.map Prod.snd = entries

variable {registry : Registry} {entries : List ℕ}

theorem empty_lists : empty.Lists [] := ⟨[], rfl, List.nodup_nil, rfl⟩

/-- The registry is empty exactly if it has no first node. -/
theorem Lists.head_eq_zero_iff (lists : registry.Lists entries) :
    registry.head = 0 ↔ entries = [] := by
  rcases lists with ⟨members, links, _, rfl⟩
  cases members with
  | nil => exact ⟨fun _ => rfl, fun _ => links⟩
  | cons first rest =>
      rcases links with ⟨same, nonzero, _⟩
      constructor
      · intro zero
        exact absurd (same.symm.trans zero) nonzero
      · intro empty
        simp at empty

/-- A registry holds one list of entries. -/
theorem Lists.unique {others : List ℕ} (lists : registry.Lists entries)
    (listsOthers : registry.Lists others) : entries = others := by
  rcases lists with ⟨members, links, _, rfl⟩
  rcases listsOthers with ⟨members', links', _, rfl⟩
  rw [links.unique links']

/-- Behind the first node is the registry of the other entries. -/
theorem Lists.tail {entry : ℕ} (lists : registry.Lists (entry :: entries)) :
    registry.head ≠ 0 ∧ ∃ next, registry.nodes.read registry.head = .ok ⟨entry, next⟩ ∧
      Lists ⟨next, Function.update registry.nodes registry.head none⟩ entries := by
  rcases lists with ⟨members, links, distinct, same⟩
  cases members with
  | nil => cases same
  | cons first rest =>
      rcases List.cons.inj same with ⟨rfl, rfl⟩
      rcases links with ⟨here, nonzero, next, live, later⟩
      rcases List.nodup_cons.mp distinct with ⟨apart, distinctRest⟩
      refine ⟨here ▸ nonzero, next, ?_, rest, ?_, distinctRest, rfl⟩
      · rw [RegistryNodes.read, here, live]
      · apply later.congr
        intro address mem
        apply Function.update_of_ne
        rintro rfl
        exact apart (here ▸ mem)

/-- An entry is put in front. -/
theorem Lists.insert {address : ℕ} (lists : registry.Lists entries) (nonzero : address ≠ 0)
    (unused : registry.nodes address = none) (entry : ℕ) :
    (registry.insert address entry).Lists (entry :: entries) := by
  rcases lists with ⟨members, links, distinct, rfl⟩
  have apart : address ∉ members.map Prod.fst := fun mem => links.live mem unused
  refine ⟨(address, entry) :: members, ⟨rfl, nonzero, registry.head, ?_, ?_⟩,
    List.nodup_cons.mpr ⟨apart, distinct⟩, rfl⟩
  · exact Function.update_self _ _ _
  · apply links.congr
    intro other mem
    apply Function.update_of_ne
    rintro rfl
    exact apart mem

/-- Taking out an entry leaves all others in place. -/
theorem Lists.remove {fuel : ℕ} (lists : registry.Lists entries) (entry : ℕ) (once : entries.Nodup)
    (enough : entries.length < fuel) :
    ∃ after, registry.remove fuel entry = .ok after ∧ after.Lists (entries.erase entry) := by
  rcases lists with ⟨members, links, distinct, rfl⟩
  rw [once.erase_eq_filter]
  cases members with
  | nil => exact ⟨registry, if_pos links, [], links, List.nodup_nil, rfl⟩
  | cons first rest =>
      have linked := links
      rcases links with ⟨same, nonzero, next, live, later⟩
      rcases List.nodup_cons.mp once with ⟨fresh, onceRest⟩
      rcases List.nodup_cons.mp distinct with ⟨apart, distinctRest⟩
      have reads : registry.nodes.read registry.head = .ok ⟨first.2, next⟩ := by
        rw [RegistryNodes.read, same, live]
      have occupied : registry.head ≠ 0 := same ▸ nonzero
      rw [Registry.remove, if_neg occupied, reads, Outcome.ok_bind]
      by_cases found : first.2 = entry
      · refine ⟨_, if_pos found, rest, ?_, distinctRest, ?_⟩
        · apply later.congr
          intro address mem
          apply Function.update_of_ne
          rintro rfl
          exact apart (same ▸ mem)
        · rw [List.map_cons, List.filter_cons_of_neg (by simpa using found),
            List.filter_eq_self.mpr]
          intro other mem
          simp only [bne_iff_ne, ne_eq]
          rintro rfl
          exact fresh (found ▸ mem)
      · rcases RegistryNodes.removeLater_eq_ok linked distinct once
          (fun one same => Option.some.inj same ▸ found) (by simpa using enough) with
          ⟨nodes, removes, links, _⟩
        refine ⟨⟨registry.head, nodes⟩, ?_, _, links, ?_, ?_⟩
        · rw [if_neg found, removes]
          rfl
        · exact distinct.sublist (List.Sublist.map _ List.filter_sublist)
        · rw [List.filter_map]
          apply congrArg (List.map Prod.snd)
          apply List.filter_congr
          intro member _
          by_cases same : member.2 = entry
          · simp [same]
          · simp [same]

theorem Lists.of_remove_returns {entry : ℕ} {after : Registry} (lists : registry.Lists entries)
    (once : entries.Nodup)
    (removes : Outcome.Returns (fun fuel => registry.remove fuel entry) after) :
    after.Lists (entries.erase entry) := by
  rcases removes with ⟨enough, returns⟩
  have long : entries.length < enough + entries.length + 1 := by omega
  rcases lists.remove entry once long with ⟨after', removed, lists⟩
  rcases Except.ok.inj ((returns _ (by omega)).symm.trans removed) with rfl
  exact lists

/-- Taking out several entries leaves the others. -/
theorem Lists.removeAll {fuel : ℕ} (lists : registry.Lists entries) (taken : List ℕ)
    (once : entries.Nodup) (enough : entries.length < fuel) :
    ∃ after rest, registry.removeAll fuel taken = .ok after ∧ after.Lists rest ∧ rest.Nodup ∧
      ∀ entry, entry ∈ rest ↔ entry ∈ entries ∧ entry ∉ taken := by
  induction taken generalizing registry entries with
  | nil => exact ⟨registry, entries, rfl, lists, once, fun entry => by simp⟩
  | cons first taken ih =>
      rcases lists.remove first once enough with ⟨removed, removes, lists⟩
      have shorter : (entries.erase first).length < fuel :=
        Nat.lt_of_le_of_lt List.length_erase_le enough
      rcases ih lists (once.erase first) shorter with ⟨after, rest, later, lists, once', members⟩
      refine ⟨after, rest, ?_, lists, once', ?_⟩
      · rw [Registry.removeAll, List.foldlM_cons, removes]
        exact later
      · intro entry
        rw [members, once.mem_erase_iff, List.mem_cons, not_or]
        constructor
        · rintro ⟨⟨other, mem⟩, apart⟩
          exact ⟨mem, other, apart⟩
        · rintro ⟨mem, other, apart⟩
          exact ⟨⟨other, mem⟩, apart⟩

end Registry

end Dang

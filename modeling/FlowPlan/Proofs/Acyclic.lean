import FlowPlan.Proofs.Edges
import Mathlib.Data.Fintype.EquivFin
import Mathlib.Data.Fintype.Sets
import Mathlib.Logic.Relation

/-! # Orders and cycles

A graph has an order exactly if no node stands, through its predecessors, before
itself. Whoever is stuck has a predecessor that is stuck as well, and among
finitely many nodes that leads back to one of them.
-/

namespace FlowPlan

namespace Graph

/-- One node is a predecessor of another one, whether it was pulled in for it or only comes before
it. -/
def Precedes (graph : Graph) (earlier later : Nat) : Prop :=
  earlier ∈ graph.nodes.map Node.key ∧ ∃ node ∈ graph.nodes, node.key = later ∧
    (earlier ∈ node.dependencies ∨ earlier ∈ node.orderings)

/-- The first key stands at an earlier place than the second one. -/
def IsBefore (order : List Nat) (first second : Nat) : Prop :=
  ∃ earlier later : Nat, earlier < later ∧ order[earlier]? = some first ∧
    order[later]? = some second

namespace IsBefore

variable {order : List Nat}

theorem irrefl (distinct : order.Nodup) (key : Nat) : ¬ IsBefore order key key := by
  rintro ⟨earlier, later, less, atEarlier, atLater⟩
  have inside := (List.getElem?_eq_some_iff.mp atEarlier).1
  have same := (List.getElem?_inj inside distinct).mp (atEarlier.trans atLater.symm)
  omega

theorem trans (distinct : order.Nodup) {first second third : Nat}
    (former : IsBefore order first second) (latter : IsBefore order second third) :
    IsBefore order first third := by
  rcases former with ⟨start, middle, startLess, atStart, atMiddle⟩
  rcases latter with ⟨again, stop, stopLess, atAgain, atStop⟩
  have inside := (List.getElem?_eq_some_iff.mp atMiddle).1
  have same : middle = again := (List.getElem?_inj inside distinct).mp (atMiddle.trans atAgain.symm)
  exact ⟨start, stop, by omega, atStart, atStop⟩

theorem of_mem_take {position key other : Nat} (placed : order[position]? = some key)
    (mem : other ∈ order.take position) : IsBefore order other key := by
  rcases List.mem_iff_getElem?.mp mem with ⟨earlier, atEarlier⟩
  rw [List.getElem?_take] at atEarlier
  split at atEarlier
  · exact ⟨earlier, position, ‹_›, atEarlier, placed⟩
  · cases atEarlier

end IsBefore

variable {graph : Graph} {order : List Nat}

theorem isBefore_of_precedes (resolved : graph.order = .ok order)
    (indexed : graph.IsIndexed) {earlier later : Nat}
    (precedes : graph.Precedes earlier later) : IsBefore order earlier later := by
  rcases precedes with ⟨present, node, nodeMem, rfl, edge⟩
  have inOrder := (mem_order_iff resolved node.key).mpr (List.mem_map_of_mem nodeMem)
  rcases List.mem_iff_getElem?.mp inOrder with ⟨position, placed⟩
  exact .of_mem_take placed (mem_take_of_mem_predecessors resolved indexed nodeMem placed
    (Node.mem_predecessors.mpr edge) present)

/-- The node at the place has not been placed when no other one could be. -/
def IsStuck (graph : Graph) (place : Nat) : Prop :=
  place < graph.nodes.length ∧ place ∉ graph.placing.order

/-- A node that is stuck waits for another one that is. -/
theorem IsStuck.exists_predecessor (indexed : graph.IsIndexed) {place : Nat}
    (stuck : graph.IsStuck place) :
    ∃ other ∈ graph.predecessorPositions.getD place [], graph.IsStuck other := by
  have inside : place < graph.predecessorPositions.length := by simpa using stuck.1
  rcases Placing.exists_left_of_left inside stuck.2 with ⟨other, mem, left⟩
  have found := List.getElem?_eq_getElem stuck.1
  rcases (mem_predecessorPositions indexed found).mp mem with ⟨another, otherFound, _⟩
  exact ⟨other, mem, (List.getElem?_eq_some_iff.mp otherFound).1, left⟩

theorem order_isOk_iff : (∃ order, graph.order = .ok order) ↔ ∀ place, ¬ graph.IsStuck place := by
  constructor
  · intro ⟨order, resolved⟩ place stuck
    exact stuck.2 ((mem_placing_iff (order_eq_ok resolved).1).mpr stuck.1)
  · intro free
    have all : List.range graph.nodes.length ⊆ graph.placing.order := by
      intro place mem
      by_contra left
      exact free place ⟨List.mem_range.mp mem, left⟩
    have enough := (List.nodup_range.subperm all).length_le
    rw [List.length_range] at enough
    rw [Graph.order]
    exact ⟨_, if_neg (by omega)⟩

/-- Places of a graph whose nodes do not stand before themselves are well-founded. -/
theorem wellFounded_precedes (graph : Graph)
    (acyclic : ∀ key, ¬ Relation.TransGen graph.Precedes key key) :
    WellFounded (InvImage (Relation.TransGen graph.Precedes)
      fun place : Fin graph.nodes.length => graph.nodes[place].key) := by
  have : IsTrans (Fin graph.nodes.length) (InvImage (Relation.TransGen graph.Precedes)
      fun place => graph.nodes[place].key) :=
    ⟨fun _ _ _ => Relation.TransGen.trans⟩
  have : Std.Irrefl (InvImage (Relation.TransGen graph.Precedes)
      fun place : Fin graph.nodes.length => graph.nodes[place].key) :=
    ⟨fun place => acyclic graph.nodes[place].key⟩
  exact Finite.wellFounded_of_trans_of_irrefl _

/-- No node is stuck if none stands before itself. -/
theorem not_isStuck (indexed : graph.IsIndexed)
    (acyclic : ∀ key, ¬ Relation.TransGen graph.Precedes key key) (place : Nat) :
    ¬ graph.IsStuck place := by
  intro stuck
  have founded := wellFounded_precedes graph acyclic
  have nobody : ∀ place : Fin graph.nodes.length, ¬ graph.IsStuck place := by
    intro place
    -- A stuck node has a stuck predecessor, so the least one could not be there.
    induction place using founded.induction with
    | _ place induction =>
        intro stuck
        rcases stuck.exists_predecessor indexed with ⟨other, mem, otherStuck⟩
        have found := List.getElem?_eq_getElem place.isLt
        rcases (mem_predecessorPositions indexed found).mp mem with
          ⟨another, otherFound, isPredecessor⟩
        rcases List.getElem?_eq_some_iff.mp otherFound with ⟨_, rfl⟩
        refine induction ⟨other, otherStuck.1⟩ (.single ?_) otherStuck
        exact ⟨List.mem_map_of_mem (List.mem_of_getElem? otherFound), _,
          List.mem_of_getElem? found, rfl, Node.mem_predecessors.mp isPredecessor⟩
  exact nobody ⟨place, stuck.1⟩ stuck

/-- No node of an order stands before itself. -/
theorem acyclic_of_order (resolved : graph.order = .ok order) (indexed : graph.IsIndexed)
    (key : Nat) :
    ¬ Relation.TransGen graph.Precedes key key := by
  intro circle
  have placed := nodup_order resolved indexed
  have before : ∀ later, Relation.TransGen graph.Precedes key later →
      IsBefore order key later := by
    intro later chain
    induction chain with
    | single precedes => exact isBefore_of_precedes resolved indexed precedes
    | tail _ precedes induction =>
        exact induction.trans placed (isBefore_of_precedes resolved indexed precedes)
  exact IsBefore.irrefl placed key (before key circle)

/-- The graph of a job has an order exactly if none of its nodes stands before itself. The order
has every node once and nothing else, and each behind everything that it has to run after. -/
theorem order_is_topological (items : List Item) :
    ((∃ order, (ofItems items).order = .ok order) ↔
      ∀ key, ¬ Relation.TransGen (ofItems items).Precedes key key) ∧
    ∀ order, (ofItems items).order = .ok order →
      order.Nodup ∧ (∀ key, key ∈ order ↔ ∃ node ∈ (ofItems items).nodes, node.key = key) ∧
      ∀ node ∈ (ofItems items).nodes, ∀ target,
        target ∈ node.dependencies ∨ target ∈ node.orderings → IsBefore order target node.key := by
  have indexed := isIndexed_ofItems items
  refine ⟨⟨?_, ?_⟩, ?_⟩
  · rintro ⟨order, resolved⟩
    exact acyclic_of_order resolved indexed
  · intro acyclic
    exact order_isOk_iff.mpr (not_isStuck indexed acyclic)
  · intro order resolved
    refine ⟨nodup_order resolved indexed, ?_, ?_⟩
    · intro key
      rw [mem_order_iff resolved, List.mem_map]
    · intro node mem target edge
      have present := mem_keys_of_mem_predecessors mem (Node.mem_predecessors.mpr edge)
      exact isBefore_of_precedes resolved indexed ⟨present, node, mem, rfl, edge⟩

end Graph

end FlowPlan

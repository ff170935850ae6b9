import Absolute.StdJson

/-!
# Each JSON node has one owner

Where `add` and `setProp` are given what its wrapper owns and what does not own the
receiver, the scalar forms find an array or an object, and no text that is parsed has a
key twice in an object (`Op.Proper`), each node has one owner, a wrapper or a slot, no node
owns itself, and no node is deleted twice. Elsewhere that fails: what is added a second
time has two slots.
-/

namespace Absolute

namespace Json

open OwnedHeap

/-! ## Maps -/

section Maps

variable {α : Type*} {key : Text} {old : α} {l : List (Text × α)}

theorem assign_perm_of_lookup_none (value : α) (h : l.lookup key = none) :
    (assign key value l).Perm ((key, value) :: l) := by
  induction l with
  | nil => exact .refl _
  | cons p l ih =>
    obtain ⟨k, v⟩ := p
    rw [List.lookup_cons] at h
    split at h
    · cases h
    next hne =>
      rw [assign]
      split_ifs with hlt heq
      · exact .refl _
      · exact absurd hne (by simp [heq])
      · exact ((ih h).cons _).trans (.swap _ _ _)

theorem lookup_assign_of_ne {k : Text} (value : α) (hne : k ≠ key) (h : l.lookup k = none) :
    (assign key value l).lookup k = none := by
  refine List.lookup_eq_none_iff.mpr fun p hp => ?_
  rcases key_of_mem_assign hp with heq | hmem
  · simpa [heq] using hne
  · exact List.lookup_eq_none_iff.mp h p hmem

/-- The map without a key. -/
def erase (key : Text) (l : List (Text × α)) : List (Text × α) := l.filter fun p => p.1 ≠ key

theorem sorted_erase (key : Text) (h : Sorted l) : Sorted (erase key l) :=
  List.Pairwise.sublist (List.filter_sublist.map _) h

theorem erase_of_lt (h : ∀ q ∈ l, key < q.1) : erase key l = l := by
  refine List.filter_eq_self.mpr fun q hq => ?_
  have hne : q.1 ≠ key := by
    rintro heq
    exact List.lt_irrefl _ (heq ▸ h q hq)
  simpa using hne

theorem perm_of_lookup (hs : Sorted l) (h : l.lookup key = some old) :
    l.Perm ((key, old) :: erase key l) ∧
      ∀ value, (assign key value l).Perm ((key, value) :: erase key l) := by
  induction l with
  | nil => cases h
  | cons p l ih =>
    obtain ⟨k, v⟩ := p
    obtain ⟨hk, hs⟩ := sorted_cons.mp hs
    rw [List.lookup_cons] at h
    by_cases heq : key = k
    · subst heq
      simp only [beq_self_eq_true, Option.some.injEq] at h
      subst h
      have herase : erase key ((key, v) :: l) = l := by
        rw [erase, List.filter_cons_of_neg (by simp)]
        exact erase_of_lt hk
      refine ⟨by rw [herase], fun value => ?_⟩
      rw [herase, assign, if_neg (List.lt_irrefl key), if_pos rfl]
    · have hbeq : (key == k) = false := by simpa using heq
      rw [hbeq] at h
      obtain ⟨hperm, hassign⟩ := ih hs h
      have hne : decide (k ≠ key) = true := by simpa using fun hk : k = key => heq hk.symm
      have herase : erase key ((k, v) :: l) = (k, v) :: erase key l :=
        List.filter_cons_of_pos hne
      have hlt : ¬key < k := by
        intro hlt
        have hmem : (key, old) ∈ l := hperm.mem_iff.mpr List.mem_cons_self
        exact List.lt_asymm hlt (hk _ hmem)
      refine ⟨?_, fun value => ?_⟩
      · rw [herase]
        exact (hperm.cons _).trans (.swap _ _ _)
      · rw [herase, assign, if_neg hlt, if_neg heq]
        exact ((hassign value).cons _).trans (.swap _ _ _)

end Maps

/-! ## Cells -/

section Cells

variable {node : Cell} {key : Text} {old : ℕ}

theorem push_children (node : Cell) (q : ℕ) :
    (node.push q).children.Perm (q :: node.children) := by
  simp only [Cell.children, Cell.push, List.append_assoc]
  exact List.perm_middle

theorem setProperty_children_of_none (q : ℕ) (h : node.objectProperties.lookup key = none) :
    (node.setProperty key q).children.Perm (q :: node.children) :=
  (((assign_perm_of_lookup_none q h).map Prod.snd).append_left _).trans List.perm_middle

def Cell.erase (node : Cell) (key : Text) : Cell :=
  { node with
    objectProperties := Json.erase key node.objectProperties
    sorted := sorted_erase key node.sorted }

theorem erase_children (h : node.objectProperties.lookup key = some old) :
    node.children.Perm (old :: (node.erase key).children) :=
  (((perm_of_lookup node.sorted h).1.map Prod.snd).append_left _).trans List.perm_middle

theorem setProperty_children_of_some (q : ℕ) (h : node.objectProperties.lookup key = some old) :
    (node.setProperty key q).children.Perm (q :: (node.erase key).children) :=
  ((((perm_of_lookup node.sorted h).2 q).map Prod.snd).append_left _).trans List.perm_middle

end Cells

/-! ## The native functions -/

/-- The nodes are owned by each other and by the list, and none owns itself. -/
structure Held (O : List ℕ) (nodes : Nodes) : Prop where
  owned : Owned Cell.children O nodes
  acyclic : Acyclic Cell.children nodes

section Native

variable {nodes : Nodes} {O : List ℕ} {p q : ℕ} {node : Cell} {key : Text}

theorem Held.perm {O' : List ℕ} (hO : O.Perm O') (h : Held O nodes) : Held O' nodes :=
  ⟨h.owned.perm hO, h.acyclic⟩

theorem Held.alloc (h : Held (node.children ++ O) nodes) :
    Held (nodes.next :: O) (nodes.alloc node).1 :=
  ⟨h.owned.alloc, h.acyclic.alloc h.owned⟩

theorem Held.leaf (h : Held O nodes) (type : JsonNodeType) :
    Held (nodes.next :: O) (nodes.alloc (Json.leaf type)).1 :=
  @Held.alloc _ _ (Json.leaf type) h

theorem Held.give (h : Held (q :: O) nodes) (hp : nodes.cells p = some node) {node' : Cell}
    (hchildren : node'.children.Perm (q :: node.children))
    (hreach : ¬Reaches Cell.children nodes q p) : Held O (nodes.store p node') := by
  refine ⟨h.owned.store hp ?_, h.acyclic.store hp fun c hc => ?_⟩
  · exact (hchildren.append_right O).trans List.perm_middle.symm
  · rcases List.mem_cons.mp (hchildren.mem_iff.mp hc) with rfl | hc
    · exact .inr hreach
    · exact .inl hc

theorem Held.free (h : Held (p :: O) nodes) :
    ∃ nodes', jsonFree nodes (some p) = some nodes' ∧ Held O nodes' := by
  obtain ⟨nodes', hdel, hleft⟩ := h.owned.delete (Nat.lt_succ_of_le nodes.size_le)
  exact ⟨nodes', hdel, hleft.owned, h.acyclic.remains hleft.remains⟩

theorem Held.arrayAdd (h : Held (q :: O) nodes) (hp : nodes.cells p = some node)
    (htype : node.type = .array) (hreach : ¬Reaches Cell.children nodes q p) :
    ∃ nodes', jsonArrayAdd nodes (some p) (some q) = some nodes' ∧ Held O nodes' := by
  refine ⟨nodes.store p (node.push q), ?_, h.give hp (push_children node q) hreach⟩
  simp only [jsonArrayAdd, hp, Option.map_some, if_pos htype]

/-- The node that a key held is deleted, and the object is left as it was. -/
theorem Held.freeProperty {old : ℕ} (h : Held O nodes) (hp : nodes.cells p = some node)
    (hold : node.objectProperties.lookup key = some old) :
    ∃ nodes', jsonFree nodes (some old) = some (nodes'.store p node) ∧ Held O nodes' ∧
      nodes'.cells p = some (node.erase key) ∧
      ∀ q c, Child Cell.children nodes' q c → Child Cell.children nodes q c := by
  have hlive : nodes.Live p := ⟨node, hp⟩
  have hperm := erase_children hold
  -- the object without its slot, and the old node in the hands of the deletion
  have htaken : Owned Cell.children (old :: O) (nodes.store p (node.erase key)) := by
    refine h.owned.store hp ?_
    exact List.perm_middle.trans (hperm.symm.append_right O)
  have hsub : ∀ q c, Child Cell.children (nodes.store p (node.erase key)) q c →
      Child Cell.children nodes q c := by
    rintro q c ⟨cell, hcell, hc⟩
    by_cases hq : q = p
    · subst hq
      obtain rfl := Option.some.inj ((Heap.store_self hlive).symm.trans hcell)
      exact ⟨node, hp, hperm.mem_iff.mpr (List.mem_cons_of_mem _ hc)⟩
    · exact ⟨cell, Heap.store_of_ne hq ▸ hcell, hc⟩
  obtain ⟨nodes', hdel, hleft⟩ := htaken.delete (Nat.lt_succ_of_le (Heap.size_le _))
  obtain ⟨rank, hd⟩ := h.acyclic
  have hd' : Decreases Cell.children rank (nodes.store p (node.erase key)) :=
    fun q c hc => hd q c (hsub q c hc)
  have hcell : nodes'.cells p = some (node.erase key) := by
    rw [hleft.above rank hd' p, Heap.store_self hlive]
    exact List.forall_mem_singleton.mpr
      (hd p old ⟨node, hp, hperm.mem_iff.mpr List.mem_cons_self⟩)
  refine ⟨nodes', ?_, ⟨hleft.owned, rank, hd'.remains hleft.remains⟩, hcell,
    fun q c hc => hsub q c (child_of_remains hleft.remains hc)⟩
  have hstore := delete_store (c := node) ⟨_, hcell⟩ hdel
  rw [Heap.store_store hlive, Heap.store_same hp] at hstore
  exact hstore

theorem Held.objectSet (key : Text) (h : Held (q :: O) nodes) (hp : nodes.cells p = some node)
    (htype : node.type = .object) (hreach : ¬Reaches Cell.children nodes q p) :
    ∃ nodes', jsonObjectSet nodes (some p) key (some q) = some nodes' ∧ Held O nodes' := by
  cases hlookup : node.objectProperties.lookup key with
  | none =>
    refine ⟨nodes.store p (node.setProperty key q), ?_,
      h.give hp (setProperty_children_of_none q hlookup) hreach⟩
    simp [jsonObjectSet, hp, htype, hlookup, jsonFree]
  | some old =>
    obtain ⟨nodes', hfree, hheld, hcell, hsub⟩ := h.freeProperty hp hlookup
    have hlive : nodes'.Live p := ⟨_, hcell⟩
    have hreach' : ¬Reaches Cell.children nodes' q p := fun hr =>
      hreach (Relation.ReflTransGen.mono hsub _ _ hr)
    refine ⟨nodes'.store p (node.setProperty key q), ?_,
      hheld.give hcell (setProperty_children_of_some q hlookup) hreach'⟩
    simp [jsonObjectSet, hp, htype, hlookup, hfree, Heap.store_self hlive,
      Heap.store_store hlive]

/-- A new node reaches no other one. -/
theorem leaf_reaches (hp : nodes.Live p) (type : JsonNodeType) :
    ¬Reaches Cell.children (nodes.alloc (leaf type)).1 nodes.next p := by
  intro hr
  rcases Relation.ReflTransGen.cases_head hr with heq | ⟨c, ⟨cell, hcell, hc⟩, -⟩
  · exact (Heap.lt_of_live hp).ne heq.symm
  · obtain rfl := Option.some.inj (Heap.alloc_self.symm.trans hcell)
    exact List.not_mem_nil hc

end Native

/-! ## Parsed trees -/

mutual

/-- No object has a key twice. -/
def Node.KeysOnce : Node → Prop
  | .array elements => elementsKeysOnce elements
  | .object members => (members.map Prod.fst).Nodup ∧ membersKeysOnce members
  | _ => True

def elementsKeysOnce : List Node → Prop
  | [] => True
  | element :: rest => element.KeysOnce ∧ elementsKeysOnce rest

def membersKeysOnce : List (Text × Node) → Prop
  | [] => True
  | (_, value) :: rest => value.KeysOnce ∧ membersKeysOnce rest

end

mutual

theorem held_allocate {O : List ℕ} : ∀ (v : Node) {nodes : Nodes}, Held O nodes → v.KeysOnce →
    Held ((allocate v nodes).2 :: O) (allocate v nodes).1
  | .null, _, h, _ => h.leaf .null
  | .bool _, _, h, _ => h.leaf .bool
  | .number _, _, h, _ => h.leaf .number
  | .string _, _, h, _ => h.leaf .string
  | .array elements, _, h, hkeys =>
    (held_allocateElements (leaf .array) elements h hkeys).alloc
  | .object members, _, h, hkeys =>
    (held_allocateMembers (leaf .object) members h hkeys.1 (fun _ _ => rfl) hkeys.2).alloc

theorem held_allocateElements {O : List ℕ} (node : Cell) :
    ∀ (elements : List Node) {nodes : Nodes}, Held (node.children ++ O) nodes →
      elementsKeysOnce elements →
      Held ((allocateElements node elements nodes).2.children ++ O)
        (allocateElements node elements nodes).1
  | [], _, h, _ => h
  | element :: rest, nodes, h, hkeys => by
    have helem := held_allocate element h hkeys.1
    refine held_allocateElements (node.push (allocate element nodes).2) rest (helem.perm ?_)
      hkeys.2
    exact (push_children node _).symm.append_right O

theorem held_allocateMembers {O : List ℕ} (node : Cell) :
    ∀ (members : List (Text × Node)) {nodes : Nodes}, Held (node.children ++ O) nodes →
      (members.map Prod.fst).Nodup →
      (∀ m ∈ members, node.objectProperties.lookup m.1 = none) → membersKeysOnce members →
      Held ((allocateMembers node members nodes).2.children ++ O)
        (allocateMembers node members nodes).1
  | [], _, h, _, _, _ => h
  | (key, value) :: rest, nodes, h, hnodup, hnew, hkeys => by
    obtain ⟨hkey, hnodup⟩ := List.nodup_cons.mp hnodup
    obtain ⟨hnone, hnew⟩ := List.forall_mem_cons.mp hnew
    have hvalue := held_allocate value h hkeys.1
    refine held_allocateMembers (node.setProperty key (allocate value nodes).2) rest
      (hvalue.perm ?_) hnodup (fun m hm => ?_) hkeys.2
    · exact (setProperty_children_of_none _ hnone).symm.append_right O
    · have hmem : m.1 ∈ rest.map Prod.fst := List.mem_map_of_mem hm
      have hne : m.1 ≠ key := fun heq => hkey (heq ▸ hmem)
      exact lookup_assign_of_ne _ hne (hnew m hm)

end

/-! ## Calls -/

/-- What a wrapper owns. -/
def JsonValue.owned (w : JsonValue) : List ℕ := if w.isOwner then w.handle.toList else []

def State.owners (s : State) : List ℕ := s.wrappers.flatMap JsonValue.owned

def State.Owned (s : State) : Prop := Held s.owners s.nodes

/-- The node of the wrapper, where it has one, is live. -/
def State.Usable (s : State) (i : ℕ) : Prop :=
  ∃ w, s.wrappers[i]? = some w ∧ ∀ p, w.handle = some p → s.nodes.Live p

/-- The wrapper has a live node of the type. -/
def State.HasType (s : State) (i : ℕ) (type : JsonNodeType) : Prop :=
  ∃ w p node, s.wrappers[i]? = some w ∧ w.handle = some p ∧ s.nodes.cells p = some node ∧
    node.type = type

/-- The wrapper `j` owns the root of a tree that the node of the wrapper `i` is not in. -/
def State.MayTake (s : State) (i j : ℕ) : Prop :=
  ∀ w v p q, s.wrappers[i]? = some w → s.wrappers[j]? = some v → w.handle = some p →
    v.handle = some q → v.isOwner = true ∧ ¬Reaches Cell.children s.nodes q p

/-- No wrapper is used after its tree is destroyed. -/
def Op.Usable (s : State) : Op → Prop
  | .create _ | .parse _ | .parseFails _ | .add _ none | .setProp _ _ none => True
  | .getAt i _ | .getProp i _ | .addValue i _ | .setValue i _ _ => s.Usable i
  | .add i (some j) | .setProp i _ (some j) => s.Usable i ∧ s.Usable j
  | .destroy i => ∃ w, s.wrappers[i]? = some w

/-- What is given away is the wrapper's own and of another tree, what is created finds its
place, and no node of a text is overwritten. -/
def Op.Proper (s : State) : Op → Prop
  | .add i (some j) => s.HasType i .array → s.MayTake i j
  | .setProp i _ (some j) => s.HasType i .object → s.MayTake i j
  | .addValue i _ => s.HasType i .array
  | .setValue i _ _ => s.HasType i .object
  | .parse written => written.KeysOnce
  | .parseFails overwritten => overwritten = []
  | _ => True

section Calls

variable {s : State} {w v : JsonValue} {i j p q : ℕ}

theorem State.Owned.push (h : Held (w.owned ++ s.owners) s.nodes) : (s.push w).Owned := by
  refine h.perm ?_
  simp only [State.owners, State.push, List.flatMap_append, List.flatMap_singleton]
  exact List.perm_append_comm

theorem State.Owned.pushChild (h : s.Owned) (child : Option ℕ) : (s.pushChild child).Owned := by
  cases child with
  | none => exact h
  | some p => exact State.Owned.push h

/-- A wrapper among the others, before and after it is changed. -/
theorem owners_set (hj : s.wrappers[j]? = some v) : ∃ rest : List ℕ,
    s.owners.Perm (v.owned ++ rest) ∧
      ∀ nodes v', (State.owners ⟨nodes, s.wrappers.set j v'⟩).Perm (v'.owned ++ rest) := by
  obtain ⟨hlt, rfl⟩ := List.getElem?_eq_some_iff.mp hj
  refine ⟨(s.wrappers.eraseIdx j).flatMap JsonValue.owned, ?_, fun nodes v' => ?_⟩
  · exact ((List.getElem_cons_eraseIdx_perm hlt).flatMap_right _).symm
  · have hlt' : j < (s.wrappers.set j v').length := by rwa [List.length_set]
    have hperm := List.getElem_cons_eraseIdx_perm hlt'
    rw [List.getElem_set_self, List.eraseIdx_set_eq] at hperm
    exact (hperm.flatMap_right _).symm

/-- The node of a wrapper is given away. -/
theorem State.Owned.give (h : s.Owned) (hj : s.wrappers[j]? = some v) (hq : v.handle = some q)
    (hv : v.isOwner = true) : ∃ rest, Held (q :: rest) s.nodes ∧ ∀ nodes v', v'.owned = [] →
      Held rest nodes → State.Owned ⟨nodes, s.wrappers.set j v'⟩ := by
  obtain ⟨rest, hperm, hset⟩ := owners_set hj
  have howned : v.owned = [q] := by simp [JsonValue.owned, hq, hv]
  rw [howned] at hperm
  refine ⟨rest, h.perm hperm, fun nodes v' hempty hrest => ?_⟩
  have hperm' := hset nodes v'
  rw [hempty] at hperm'
  exact hrest.perm hperm'.symm

/-- A wrapper without a node changes nothing. -/
theorem State.Owned.give_null (h : s.Owned) (hj : s.wrappers[j]? = some v)
    (hq : v.handle = none) {v' : JsonValue} (hempty : v'.owned = []) :
    State.Owned ⟨s.nodes, s.wrappers.set j v'⟩ := by
  obtain ⟨rest, hperm, hset⟩ := owners_set hj
  have hperm' := hset s.nodes v'
  have howned : v.owned = [] := by simp [JsonValue.owned, hq]
  rw [howned] at hperm
  rw [hempty] at hperm'
  exact h.perm (hperm.trans hperm'.symm)

theorem owned_of_not_owner (v : JsonValue) : { v with isOwner := false }.owned = [] := rfl

theorem State.Owned.create (h : s.Owned) (type : JsonNodeType) : (createValue s type).Owned :=
  State.Owned.push (Held.leaf h type)

theorem State.Owned.parse (h : s.Owned) {written : Node} (hkeys : written.KeysOnce) :
    (Json.parse s written).Owned := State.Owned.push (held_allocate written h hkeys)

theorem State.Owned.getAt (h : s.Owned) (hlive : ∀ p, w.handle = some p → s.nodes.Live p)
    (index : ℤ) : ∃ s', w.getAt s index = some s' ∧ s'.Owned := by
  cases hp : w.handle with
  | none => exact ⟨_, by simp [JsonValue.getAt, jsonGetArrayElem, hp], h.pushChild none⟩
  | some p =>
    obtain ⟨node, hnode⟩ := hlive p hp
    simp only [JsonValue.getAt, jsonGetArrayElem, hp, hnode, Option.map_some,
      Option.bind_eq_bind, Option.bind_some, Option.some.injEq, exists_eq_left']
    exact h.pushChild _

theorem State.Owned.getProp (h : s.Owned) (hlive : ∀ p, w.handle = some p → s.nodes.Live p)
    (key : Text) : ∃ s', w.getProp s key = some s' ∧ s'.Owned := by
  cases hp : w.handle with
  | none => exact ⟨_, by simp [JsonValue.getProp, jsonGetProperty, hp], h.pushChild none⟩
  | some p =>
    obtain ⟨node, hnode⟩ := hlive p hp
    simp only [JsonValue.getProp, jsonGetProperty, hp, hnode, Option.map_some,
      Option.bind_eq_bind, Option.bind_some, Option.some.injEq, exists_eq_left']
    exact h.pushChild _

theorem State.Owned.add (h : s.Owned) (hi : s.wrappers[i]? = some w)
    (hj : s.wrappers[j]? = some v) (hlive : ∀ p, w.handle = some p → s.nodes.Live p)
    (htake : s.HasType i .array → s.MayTake i j) :
    ∃ s', w.add s j v = some s' ∧ s'.Owned := by
  cases hp : w.handle with
  | none => exact ⟨s, by simp [JsonValue.add, jsonGetType, hp], h⟩
  | some p =>
    obtain ⟨node, hnode⟩ := hlive p hp
    by_cases htype : node.type = .array
    · cases hq : v.handle with
      | none =>
        refine ⟨_, ?_, h.give_null hj hq (owned_of_not_owner v)⟩
        simp [JsonValue.add, jsonGetType, jsonArrayAdd, hp, hnode, htype, hq]
      | some q =>
        obtain ⟨hv, hreach⟩ := htake ⟨w, p, node, hi, hp, hnode, htype⟩ w v p q hi hj hp hq
        obtain ⟨rest, hheld, hgiven⟩ := h.give hj hq hv
        obtain ⟨nodes', hadd, hrest⟩ := hheld.arrayAdd hnode htype hreach
        refine ⟨_, ?_, hgiven nodes' _ (owned_of_not_owner v) hrest⟩
        simp [JsonValue.add, jsonGetType, hp, hnode, htype, hq, hadd]
    · exact ⟨s, by simp [JsonValue.add, jsonGetType, hp, hnode, htype], h⟩

theorem State.Owned.setProp (h : s.Owned) (hi : s.wrappers[i]? = some w)
    (hj : s.wrappers[j]? = some v) (hlive : ∀ p, w.handle = some p → s.nodes.Live p)
    (key : Text) (htake : s.HasType i .object → s.MayTake i j) :
    ∃ s', w.setProp s key j v = some s' ∧ s'.Owned := by
  cases hp : w.handle with
  | none => exact ⟨s, by simp [JsonValue.setProp, jsonGetType, hp], h⟩
  | some p =>
    obtain ⟨node, hnode⟩ := hlive p hp
    by_cases htype : node.type = .object
    · cases hq : v.handle with
      | none =>
        refine ⟨_, ?_, h.give_null hj hq (owned_of_not_owner v)⟩
        simp [JsonValue.setProp, jsonGetType, jsonObjectSet, hp, hnode, htype, hq]
      | some q =>
        obtain ⟨hv, hreach⟩ := htake ⟨w, p, node, hi, hp, hnode, htype⟩ w v p q hi hj hp hq
        obtain ⟨rest, hheld, hgiven⟩ := h.give hj hq hv
        obtain ⟨nodes', hset, hrest⟩ := hheld.objectSet key hnode htype hreach
        refine ⟨_, ?_, hgiven nodes' _ (owned_of_not_owner v) hrest⟩
        simp [JsonValue.setProp, jsonGetType, hp, hnode, htype, hq, hset]
    · exact ⟨s, by simp [JsonValue.setProp, jsonGetType, hp, hnode, htype], h⟩

/-- The receiver is as it was when the new node is created. -/
theorem alloc_leaf_cell {nodes : Nodes} {node : Cell} (hnode : nodes.cells p = some node)
    (type : JsonNodeType) : (nodes.alloc (leaf type)).1.cells p = some node :=
  (Heap.alloc_of_ne (Heap.lt_of_live ⟨node, hnode⟩).ne).trans hnode

theorem State.Owned.addValue (h : s.Owned) (hi : s.wrappers[i]? = some w)
    (htype : s.HasType i .array) (type : JsonNodeType) :
    ∃ s', w.addValue s type = some s' ∧ s'.Owned := by
  obtain ⟨w', p, node, hi', hp, hnode, htype⟩ := htype
  obtain rfl := Option.some.inj (hi.symm.trans hi')
  obtain ⟨nodes', hadd, hrest⟩ := (Held.leaf h type).arrayAdd (alloc_leaf_cell hnode type) htype
    (leaf_reaches ⟨node, hnode⟩ type)
  refine ⟨⟨nodes', s.wrappers⟩, ?_, hrest⟩
  simp only [JsonValue.addValue, hp]
  exact Option.bind_eq_some_iff.mpr ⟨nodes', hadd, rfl⟩

theorem State.Owned.setValue (h : s.Owned) (hi : s.wrappers[i]? = some w)
    (htype : s.HasType i .object) (key : Text) (type : JsonNodeType) :
    ∃ s', w.setValue s key type = some s' ∧ s'.Owned := by
  obtain ⟨w', p, node, hi', hp, hnode, htype⟩ := htype
  obtain rfl := Option.some.inj (hi.symm.trans hi')
  obtain ⟨nodes', hset, hrest⟩ := (Held.leaf h type).objectSet key
    (alloc_leaf_cell hnode type) htype (leaf_reaches ⟨node, hnode⟩ type)
  refine ⟨⟨nodes', s.wrappers⟩, ?_, hrest⟩
  simp only [JsonValue.setValue, hp]
  exact Option.bind_eq_some_iff.mpr ⟨nodes', hset, rfl⟩

theorem State.Owned.destroy (h : s.Owned) (hi : s.wrappers[i]? = some w) :
    ∃ s', w.destroy s i = some s' ∧ s'.Owned := by
  by_cases hw : w.isOwner = true ∧ w.handle ≠ none
  · obtain ⟨p, hp⟩ := Option.ne_none_iff_exists'.mp hw.2
    obtain ⟨rest, hheld, hgiven⟩ := h.give hi hp hw.1
    obtain ⟨nodes', hfree, hrest⟩ := hheld.free
    refine ⟨_, ?_, hgiven nodes' { w with handle := none } ?_ hrest⟩
    · rw [JsonValue.destroy, if_pos hw, hp, hfree]
      rfl
    · simp [JsonValue.owned]
  · exact ⟨s, if_neg hw, h⟩

/-- A call that is usable and proper is defined, and the nodes keep their owners. -/
theorem State.Owned.step (h : s.Owned) {op : Op} (huse : op.Usable s) (hproper : op.Proper s) :
    ∃ s', op.step s = some s' ∧ s'.Owned := by
  cases op with
  | create type => exact ⟨_, rfl, h.create type⟩
  | parse written => exact ⟨_, rfl, h.parse hproper⟩
  | parseFails overwritten =>
    obtain rfl : overwritten = [] := hproper
    exact ⟨s, rfl, h⟩
  | getAt i index =>
    obtain ⟨w, hi, hlive⟩ := huse
    obtain ⟨s', hstep, hs'⟩ := h.getAt hlive index
    exact ⟨s', by simp [Op.step, hi, hstep], hs'⟩
  | getProp i key =>
    obtain ⟨w, hi, hlive⟩ := huse
    obtain ⟨s', hstep, hs'⟩ := h.getProp hlive key
    exact ⟨s', by simp [Op.step, hi, hstep], hs'⟩
  | add i item =>
    cases item with
    | none => exact ⟨s, rfl, h⟩
    | some j =>
      obtain ⟨⟨w, hi, hlive⟩, v, hj, -⟩ := huse
      obtain ⟨s', hstep, hs'⟩ := h.add hi hj hlive hproper
      exact ⟨s', by simp [Op.step, hi, hj, hstep], hs'⟩
  | addValue i type =>
    obtain ⟨w, hi, -⟩ := huse
    obtain ⟨s', hstep, hs'⟩ := h.addValue hi hproper type
    exact ⟨s', by simp [Op.step, hi, hstep], hs'⟩
  | setProp i key val =>
    cases val with
    | none => exact ⟨s, rfl, h⟩
    | some j =>
      obtain ⟨⟨w, hi, hlive⟩, v, hj, -⟩ := huse
      obtain ⟨s', hstep, hs'⟩ := h.setProp hi hj hlive key hproper
      exact ⟨s', by simp [Op.step, hi, hj, hstep], hs'⟩
  | setValue i key type =>
    obtain ⟨w, hi, -⟩ := huse
    obtain ⟨s', hstep, hs'⟩ := h.setValue hi hproper key type
    exact ⟨s', by simp [Op.step, hi, hstep], hs'⟩
  | destroy i =>
    obtain ⟨w, hi⟩ := huse
    obtain ⟨s', hstep, hs'⟩ := h.destroy hi
    exact ⟨s', by simp [Op.step, hi, hstep], hs'⟩

end Calls

/-! ## Owners -/

/-- Where a node is owned. -/
inductive Owner where
  | wrapper (i : ℕ)
  | slot (parent position : ℕ)

def State.Owns (s : State) : Owner → ℕ → Prop
  | .wrapper i, p => ∃ w, s.wrappers[i]? = some w ∧ w.isOwner = true ∧ w.handle = some p
  | .slot parent position, p =>
    ∃ node, s.nodes.cells parent = some node ∧ node.children[position]? = some p

/-- The nodes are a forest: each has one owner, what is owned is there, and no node owns
itself. -/
structure State.Forest (s : State) : Prop where
  owner : ∀ p, s.nodes.Live p → ∃! o, s.Owns o p
  owned : ∀ o p, s.Owns o p → s.nodes.Live p
  acyclic : ∀ p, ¬Relation.TransGen (Child Cell.children s.nodes) p p

section Owners

variable {s : State} {i parent position p : ℕ}

theorem mem_owners_iff : p ∈ s.owners ↔ ∃ i, s.Owns (.wrapper i) p := by
  rw [State.owners, List.mem_flatMap]
  constructor
  · rintro ⟨w, hw, hp⟩
    obtain ⟨i, hi⟩ := List.mem_iff_getElem?.mp hw
    simp only [JsonValue.owned] at hp
    split_ifs at hp with howner
    · exact ⟨i, w, hi, howner, Option.mem_toList.mp hp⟩
    · cases hp
  · rintro ⟨i, w, hi, howner, hp⟩
    exact ⟨w, List.mem_of_getElem? hi, by simp [JsonValue.owned, howner, hp]⟩

theorem child_iff_slot :
    Child Cell.children s.nodes parent p ↔ ∃ position, s.Owns (.slot parent position) p := by
  constructor
  · rintro ⟨node, hnode, hp⟩
    obtain ⟨position, hposition⟩ := List.mem_iff_getElem?.mp hp
    exact ⟨position, node, hnode, hposition⟩
  · rintro ⟨position, node, hnode, hposition⟩
    exact ⟨node, hnode, List.mem_of_getElem? hposition⟩

/-- Two wrappers own two nodes. -/
theorem wrapper_unique {j : ℕ} (h : s.owners.Nodup) (hi : s.Owns (.wrapper i) p)
    (hj : s.Owns (.wrapper j) p) : i = j := by
  obtain ⟨w, hi, howner, hp⟩ := hi
  obtain ⟨v, hj, howner', hp'⟩ := hj
  obtain ⟨hlt, rfl⟩ := List.getElem?_eq_some_iff.mp hi
  obtain ⟨hlt', rfl⟩ := List.getElem?_eq_some_iff.mp hj
  have hpairs := List.pairwise_iff_getElem.mp (List.nodup_flatMap.mp h).2
  have hmem : p ∈ (s.wrappers[i]).owned := by simp [JsonValue.owned, howner, hp]
  have hmem' : p ∈ (s.wrappers[j]).owned := by simp [JsonValue.owned, howner', hp']
  rcases lt_trichotomy i j with hij | heq | hji
  · exact absurd hmem' (hpairs i j hlt hlt' hij hmem)
  · exact heq
  · exact absurd hmem (hpairs j i hlt' hlt hji hmem')

theorem slot_unique {parent' position' : ℕ} (h : s.Owned)
    (hp : s.Owns (.slot parent position) p) (hp' : s.Owns (.slot parent' position') p) :
    parent = parent' ∧ position = position' := by
  obtain rfl := h.owned.slot_unique parent parent' p (child_iff_slot.mpr ⟨_, hp⟩)
    (child_iff_slot.mpr ⟨_, hp'⟩)
  obtain ⟨node, hnode, hposition⟩ := hp
  obtain ⟨node', hnode', hposition'⟩ := hp'
  obtain rfl := Option.some.inj (hnode.symm.trans hnode')
  have hlt := (List.getElem?_eq_some_iff.mp hposition).1
  exact ⟨rfl, (List.getElem?_inj hlt (h.owned.slot_nodup parent node hnode)).mp
    (hposition.trans hposition'.symm)⟩

theorem not_wrapper_of_slot (h : s.Owned) (hp : s.Owns (.slot parent position) p) :
    ¬s.Owns (.wrapper i) p := fun hi =>
  h.owned.slot_inside parent p (child_iff_slot.mpr ⟨_, hp⟩) (mem_owners_iff.mpr ⟨i, hi⟩)

theorem State.Owned.forest (h : s.Owned) : s.Forest where
  owner := fun p hp => by
    rcases h.owned.placed p hp with hmem | ⟨parent, hchild⟩
    · obtain ⟨i, hi⟩ := mem_owners_iff.mp hmem
      refine ⟨.wrapper i, hi, fun o ho => ?_⟩
      cases o with
      | wrapper j => rw [wrapper_unique h.owned.outside_nodup ho hi]
      | slot parent position => exact absurd hi (not_wrapper_of_slot h ho)
    · obtain ⟨position, hslot⟩ := child_iff_slot.mp hchild
      refine ⟨.slot parent position, hslot, fun o ho => ?_⟩
      cases o with
      | wrapper j => exact absurd ho (not_wrapper_of_slot h hslot)
      | slot parent' position' =>
        obtain ⟨rfl, rfl⟩ := slot_unique h ho hslot
        rfl
  owned := fun o p ho => by
    cases o with
    | wrapper i => exact h.owned.outside_live p (mem_owners_iff.mpr ⟨i, ho⟩)
    | slot parent position => exact h.owned.slot_live parent p (child_iff_slot.mpr ⟨_, ho⟩)
  acyclic := h.acyclic.not_transGen

end Owners

/-! ## Runs -/

/-- The states after calls that are admitted where they are made. -/
inductive Run (admitted : State → Op → Prop) : State → Prop
  | start : Run admitted .empty
  | step {s s' : State} (op : Op) (run : Run admitted s) (hop : admitted s op)
      (hstep : op.step s = some s') : Run admitted s'

/-- In a run of proper calls the nodes are a forest, no call deletes a node a second time or
reads one that is deleted, and when no wrapper owns a node each one is deleted. -/
theorem proper_run_sound {s : State} (run : Run (fun s op => op.Usable s ∧ op.Proper s) s) :
    s.Forest ∧ (∀ op : Op, op.Usable s → op.Proper s → ∃ s', op.step s = some s') ∧
      ((∀ i p, ¬s.Owns (.wrapper i) p) → ∀ p, ¬s.nodes.Live p) := by
  have howned : s.Owned := by
    induction run with
    | start => exact ⟨owned_empty, fun _ => 0, fun _ _ ⟨_, hc, _⟩ => by cases hc⟩
    | step op _ hop hstep ih =>
      obtain ⟨s', hstep', hs'⟩ := ih.step hop.1 hop.2
      obtain rfl := Option.some.inj (hstep.symm.trans hstep')
      exact hs'
  refine ⟨howned.forest, fun op huse hproper => ?_, fun hnone p => ?_⟩
  · obtain ⟨s', hstep, -⟩ := howned.step huse hproper
    exact ⟨s', hstep⟩
  · have hempty : s.owners = [] := List.eq_nil_iff_forall_not_mem.mpr fun q hq =>
      (mem_owners_iff.mp hq).elim fun i hi => hnone i q hi
    have hheld : Held [] s.nodes := hempty ▸ howned
    exact hheld.owned.not_live_of_nil hheld.acyclic p

/-- Two wrappers, each with its node. -/
def arrayAndNull : State := createValue (createValue .empty .array) .null

theorem add_usable : (Op.add 0 (some 1)).Usable arrayAndNull :=
  ⟨⟨⟨some 0, true⟩, rfl, fun _ hp => Option.some.inj hp ▸ ⟨leaf .array, rfl⟩⟩,
    ⟨some 1, true⟩, rfl, fun _ hp => Option.some.inj hp ▸ ⟨leaf .null, rfl⟩⟩

theorem proper_run_destroyed : ∃ s, Run (fun s op => op.Usable s ∧ op.Proper s) s ∧
    s.nodes.next = 2 ∧ ∀ p, ¬s.nodes.Live p := by
  have hlive : (createValue .empty .array).nodes.Live 0 := ⟨leaf .array, rfl⟩
  have hproper : (Op.add 0 (some 1)).Proper arrayAndNull := by
    rintro - w v p q hi hj hp hq
    obtain rfl : JsonValue.mk (some 0) true = w := Option.some.inj hi
    obtain rfl : JsonValue.mk (some 1) true = v := Option.some.inj hj
    obtain rfl : 0 = p := Option.some.inj hp
    obtain rfl : 1 = q := Option.some.inj hq
    exact ⟨rfl, leaf_reaches hlive .null⟩
  have created : Run (fun s op => op.Usable s ∧ op.Proper s) arrayAndNull :=
    .step (.create .null) (.step (.create .array) .start ⟨trivial, trivial⟩ rfl)
      ⟨trivial, trivial⟩ rfl
  have run := Run.step (.destroy 0) (Run.step _ created ⟨add_usable, hproper⟩ rfl)
    ⟨⟨_, rfl⟩, trivial⟩ rfl
  refine ⟨_, run, rfl, (proper_run_sound run).2.2 ?_⟩
  rintro i p ⟨w, hi, howner, hp⟩
  rcases i with _ | _ | i
  · cases Option.some.inj hi
    cases hp
  · cases Option.some.inj hi
    cases howner
  · cases hi

/-- An item that is added twice is in the array twice. -/
theorem added_twice : ¬∀ s, Run Op.Usable s → s.Forest := by
  intro hforest
  have created : Run Op.Usable arrayAndNull :=
    .step (.create .null) (.step (.create .array) .start trivial rfl) trivial rfl
  have added := Run.step _ created add_usable rfl
  have run := Run.step (.add 0 (some 1)) added
    ⟨⟨⟨some 0, true⟩, rfl, fun _ hp => Option.some.inj hp ▸ ⟨_, rfl⟩⟩,
      ⟨some 1, false⟩, rfl, fun _ hp => Option.some.inj hp ▸ ⟨leaf .null, rfl⟩⟩ rfl
  have hone := (hforest _ run).owner 1 ⟨leaf .null, rfl⟩
  have heq : Owner.slot 0 0 = .slot 0 1 := hone.unique ⟨_, rfl, rfl⟩ ⟨_, rfl, rfl⟩
  cases heq

end Json

end Absolute

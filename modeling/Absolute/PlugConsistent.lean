import Absolute.LibIndexed
import Absolute.PlugRegistries

/-!
# The maps beside the registries

The maps of `syntax_plugins.cpp` say where the rows of the lists are, and no keyword
has two rules (`Registries.Consistent`), whatever was registered and unregistered before,
a registration that throws included.

A table is checked as a whole before a row is added: its keys are free and different
(`fresh_of_rowsFault`), so one row after the other finds its key free
(`invariant_foldl`).
-/

namespace Absolute

namespace Plugin

open Function Raising Registries Indexed

variable {r r' : Registries} {name : Text}

/-! ## What the maps say -/

def PluginBinaryOperator.signature (op : PluginBinaryOperator) : Text :=
  operatorKey op.leftType op.operatorText op.rightType

structure Registries.Consistent (r : Registries) : Prop where
  rules : Indexes (·.keyword) r.rules r.rulesByKeyword
  opaqueRules : Indexes (·.keyword) r.opaqueRules r.opaqueRulesByKeyword
  operators : Indexes (·.signature) r.binaryOperators r.binaryOperatorsBySignature
  apart : ∀ k, r.rulesByKeyword k = none ∨ r.opaqueRulesByKeyword k = none

theorem Registries.Consistent.empty : Consistent {} where
  rules := .nil
  opaqueRules := .nil
  operators := .nil
  apart _ := .inl rfl

/-- No keyword has two rules, of whatever kind. -/
theorem Registries.Consistent.keywords_nodup (h : Consistent r) :
    ((r.rules ++ r.opaqueRules).map (·.keyword)).Nodup := by
  rw [List.map_append, List.nodup_append]
  refine ⟨h.rules.nodup, h.opaqueRules.nodup, fun k hk k' hk' heq => ?_⟩
  subst heq
  rcases h.apart k with hnone | hnone
  · exact h.rules.eq_none_iff.mp hnone hk
  · exact h.opaqueRules.eq_none_iff.mp hnone hk'

theorem hasKeyword_eq_false {k : Text} :
    r.hasKeyword k = false ↔ r.rulesByKeyword k = none ∧ r.opaqueRulesByKeyword k = none := by
  simp [hasKeyword]

/-! ## Rows that are added -/

section Rows

variable {α : Type} {key : α → Text} {rows : List α} {seen : List Text}

/-- In a table that is accepted the keys are free and different. -/
theorem fresh_of_rowsFault {fault : α → List Text → Option RegisterError} {T : Text → Prop}
    (h : rowsFault fault key seen rows = none)
    (hfault : ∀ row seen, fault row seen = none → ¬T (key row) ∧ key row ∉ seen) :
    (rows.map key).Nodup ∧ ∀ row ∈ rows, ¬T (key row) ∧ key row ∉ seen := by
  induction rows generalizing seen with
  | nil => exact ⟨List.nodup_nil, fun row hrow => by cases hrow⟩
  | cons row rows ih =>
      unfold rowsFault at h
      split at h
      · cases h
      · rename_i hrow
        rcases ih h with ⟨hnodup, hfresh⟩
        constructor
        · rw [List.map_cons, List.nodup_cons]
          refine ⟨fun hmem => ?_, hnodup⟩
          rcases List.mem_map.mp hmem with ⟨other, hother, heq⟩
          exact (hfresh other hother).2 (heq ▸ List.mem_cons_self)
        · intro other hother
          rcases List.mem_cons.mp hother with rfl | hother
          · exact hfault other seen hrow
          · exact (hfresh other hother).imp_right fun h hseen => h (List.mem_cons_of_mem _ hseen)

/-- Rows with free and different keys are added one by one. -/
theorem invariant_foldl {add : Registries → α → Registries} {I : Registries → Prop}
    {T : Registries → Text → Prop}
    (hadd : ∀ r row, I r → ¬T r (key row) →
      I (add r row) ∧ ∀ k, T (add r row) k → T r k ∨ k = key row)
    (hnodup : (rows.map key).Nodup) (hfree : ∀ row ∈ rows, ¬T r (key row)) (hr : I r) :
    I (rows.foldl add r) := by
  induction rows generalizing r with
  | nil => exact hr
  | cons row rows ih =>
      rw [List.map_cons, List.nodup_cons] at hnodup
      rcases hadd r row hr (hfree row List.mem_cons_self) with ⟨hadded, htaken⟩
      refine ih hnodup.2 (fun other hother htake => ?_) hadded
      rcases htaken _ htake with hold | heq
      · exact hfree other (List.mem_cons_of_mem _ hother) hold
      · exact hnodup.1 (heq ▸ List.mem_map_of_mem hother)

end Rows

theorem Registries.Consistent.addRule (h : Consistent r) {rule : SyntaxRule}
    (hfree : ¬r.hasKeyword (rule.keyword.getD []) = true) :
    Consistent (r.addRule name rule) ∧ ∀ k, (r.addRule name rule).hasKeyword k = true →
      r.hasKeyword k = true ∨ k = rule.keyword.getD [] := by
  rcases hasKeyword_eq_false.mp (Bool.eq_false_iff.mpr hfree) with ⟨hrule, hopaque⟩
  unfold Registries.addRule
  dsimp only
  rw [emplace_of_none _ hrule]
  refine ⟨⟨h.rules.append ⟨name, _, _, _⟩ hrule, h.opaqueRules, h.operators, fun k => ?_⟩,
    fun k hk => ?_⟩
  · by_cases hk : k = rule.keyword.getD []
    · exact .inr (hk ▸ hopaque)
    · dsimp only
      rw [update_of_ne hk]
      exact h.apart k
  · by_cases heq : k = rule.keyword.getD []
    · exact .inr heq
    · unfold hasKeyword at hk
      dsimp only at hk
      rw [update_of_ne heq] at hk
      exact .inl hk

theorem Registries.Consistent.addOpaqueRule (h : Consistent r) {rule : OpaqueSyntaxRule}
    (hfree : ¬r.hasKeyword (opaqueKeyword rule) = true) :
    Consistent (Registries.addOpaqueRule name r rule)
      ∧ ∀ k, (Registries.addOpaqueRule name r rule).hasKeyword k = true →
        r.hasKeyword k = true ∨ k = opaqueKeyword rule := by
  rcases hasKeyword_eq_false.mp (Bool.eq_false_iff.mpr hfree) with ⟨hrule, hopaque⟩
  unfold Registries.addOpaqueRule
  rw [emplace_of_none _ hopaque]
  refine ⟨⟨h.rules, h.opaqueRules.append ⟨name, _, _, _⟩ hopaque, h.operators,
    fun k => ?_⟩, fun k hk => ?_⟩
  · by_cases hk : k = opaqueKeyword rule
    · exact .inl (hk ▸ hrule)
    · dsimp only
      rw [update_of_ne hk]
      exact h.apart k
  · by_cases heq : k = opaqueKeyword rule
    · exact .inr heq
    · unfold hasKeyword at hk
      dsimp only at hk
      rw [update_of_ne heq] at hk
      exact .inl hk

theorem Registries.Consistent.addOperator (h : Consistent r) {rule : BinaryOperatorRule}
    (hfree : ¬(r.binaryOperatorsBySignature (ruleKey rule)).isSome = true) :
    Consistent (Registries.addOperator name r rule)
      ∧ ∀ k, ((Registries.addOperator name r rule).binaryOperatorsBySignature k).isSome = true →
        (r.binaryOperatorsBySignature k).isSome = true ∨ k = ruleKey rule := by
  have hnone := Option.not_isSome_iff_eq_none.mp hfree
  unfold Registries.addOperator
  rw [emplace_of_none _ hnone]
  refine ⟨⟨h.rules, h.opaqueRules, h.operators.append ⟨name, rule.leftType.getD [],
    rule.operatorText.getD [], rule.rightType.getD [], _, _⟩ hnone, h.apart⟩, fun k hk => ?_⟩
  by_cases heq : k = ruleKey rule
  · exact .inr heq
  · dsimp only at hk
    rw [update_of_ne heq] at hk
    exact .inl hk

/-! ## What a check says -/

theorem keyword_free_of_ruleFault {rule : SyntaxRule} {seen : List Text}
    (h : ruleFault r name rule seen = none) :
    ¬r.hasKeyword (rule.keyword.getD []) = true ∧ rule.keyword.getD [] ∉ seen := by
  unfold ruleFault at h
  dsimp only at h
  split at h
  · cases h
  split at h
  · cases h
  split at h
  · cases h
  split at h
  · cases h
  · rename_i hfree
    exact not_or.mp hfree

theorem keyword_free_of_opaqueRuleFault {rule : OpaqueSyntaxRule} {seen : List Text}
    (h : opaqueRuleFault r name rule seen = none) :
    ¬r.hasKeyword (opaqueKeyword rule) = true ∧ opaqueKeyword rule ∉ seen := by
  unfold opaqueRuleFault at h
  dsimp only at h
  split at h
  · cases h
  split at h
  · cases h
  split at h
  · cases h
  split at h
  · cases h
  · rename_i hfree
    exact not_or.mp hfree

theorem signature_free_of_operatorFault {rule : BinaryOperatorRule} {seen : List Text}
    (h : operatorFault r name rule seen = none) :
    ¬(r.binaryOperatorsBySignature (ruleKey rule)).isSome = true ∧ ruleKey rule ∉ seen := by
  unfold operatorFault at h
  split at h
  · cases h
  split at h
  · cases h
  · rename_i hfree
    exact not_or.mp hfree

theorem type_free_of_resourceFault {descriptor : ResourceDescriptor}
    (h : resourceFault name descriptor r = none) :
    r.resourcesByTypeName (descriptor.typeName.getD []) = none := by
  unfold resourceFault at h
  dsimp only at h
  split at h
  · cases h
  split at h
  · cases h
  split at h
  · cases h
  · rename_i hfree
    exact Option.not_isSome_iff_eq_none.mp hfree

theorem keeps_guarded {ε σ : Type} {I : σ → Prop} {fault : σ → Option ε} {write : σ → σ}
    (h : ∀ s, I s → fault s = none → I (write s)) : Keeps I (guarded fault write) := by
  intro s hs
  unfold guarded
  cases hfault : fault s with
  | none => exact h s hs hfault
  | some e => exact hs

/-! ## The registrations keep the maps right -/

theorem consistent_syntaxPlugin (plugin : Option SyntaxPlugin) :
    Keeps Consistent (registerSyntaxPlugin plugin) := by
  cases plugin with
  | none => exact fun r h => h
  | some plugin =>
      refine keeps_guarded fun r h hfault => ?_
      unfold syntaxPluginFault at hfault
      dsimp only at hfault
      split at hfault
      · cases hfault
      split at hfault
      · cases hfault
      split at hfault
      · cases hfault
      rcases fresh_of_rowsFault (T := fun k => r.hasKeyword k = true)
        hfault fun _ _ => keyword_free_of_ruleFault
        with ⟨hnodup, hfresh⟩
      exact invariant_foldl (T := fun r k => r.hasKeyword k = true)
        (fun r row hr hrow => hr.addRule hrow) hnodup (fun row hrow => (hfresh row hrow).1) h

theorem consistent_prelude (name : Text) (source : Option Text) :
    Keeps Consistent (registerSyntaxPluginPrelude name source) := by
  refine keeps_guarded fun r h _ => ?_
  unfold addPrelude
  split
  · exact h
  · exact ⟨h.rules, h.opaqueRules, h.operators, h.apart⟩

theorem consistent_operators (name : Text) (operators : Option (Table BinaryOperatorRule)) :
    Keeps Consistent (registerPluginBinaryOperators name operators) := by
  cases operators with
  | none => exact fun r h => h
  | some operators =>
      refine keeps_guarded fun r h hfault => ?_
      unfold operatorTableFault at hfault
      split at hfault
      · cases hfault
      rcases fresh_of_rowsFault (T := fun k => (r.binaryOperatorsBySignature k).isSome = true)
        hfault fun _ _ => signature_free_of_operatorFault
        with ⟨hnodup, hfresh⟩
      exact invariant_foldl (T := fun r k => (r.binaryOperatorsBySignature k).isSome = true)
        (fun r row hr hrow => hr.addOperator hrow) hnodup (fun row hrow => (hfresh row hrow).1) h

theorem consistent_opaqueTable (name : Text) (table : Option (Table OpaqueSyntaxRule)) :
    Keeps Consistent (registerOpaqueSyntaxRules name table) := by
  cases table with
  | none => exact fun r h => h
  | some table =>
      refine keeps_guarded fun r h hfault => ?_
      unfold opaqueTableFault at hfault
      split at hfault
      · cases hfault
      rcases fresh_of_rowsFault (T := fun k => r.hasKeyword k = true)
        hfault fun _ _ => keyword_free_of_opaqueRuleFault
        with ⟨hnodup, hfresh⟩
      exact invariant_foldl (T := fun r k => r.hasKeyword k = true)
        (fun r row hr hrow => hr.addOpaqueRule hrow) hnodup (fun row hrow => (hfresh row hrow).1) h

theorem consistent_resources (name : Text) (resources : Option (Table ResourceDescriptor)) :
    Keeps Consistent (registerPluginResources name resources) := by
  cases resources with
  | none => exact fun r h => h
  | some resources =>
      refine Keeps.guarded.bind fun _ => Keeps.forM fun descriptor _ => ?_
      exact keeps_guarded fun r h _ => ⟨h.rules, h.opaqueRules, h.operators, h.apart⟩

theorem consistent_virtualModules (name : Text) (modules : Option (List VirtualModule))
    (h : Consistent r) : Consistent (registerPluginVirtualModules name modules r) := by
  cases modules with
  | none => exact h
  | some modules =>
      refine List.foldlRecOn modules _ h fun r h mod _ => ?_
      unfold addVirtualModule
      split
      · exact ⟨h.rules, h.opaqueRules, h.operators, h.apart⟩
      · exact h

theorem indexOf_apart {rules opaqueRules : List RegisteredRule} {k : Text}
    (h : k ∉ rules.map (·.keyword) ∨ k ∉ opaqueRules.map (·.keyword))
    (hrules : Indexes (·.keyword) rules (indexOf (·.keyword) rules))
    (hrows : Indexes (·.keyword) opaqueRules (indexOf (·.keyword) opaqueRules)) :
    indexOf (·.keyword) rules k = none ∨ indexOf (·.keyword) opaqueRules k = none :=
  h.imp hrules.eq_none_iff.mpr hrows.eq_none_iff.mpr

theorem Registries.Consistent.unregister (h : Consistent r) (name : Text) :
    Consistent (unregister name r) where
  rules := h.rules.filter _
  opaqueRules := h.opaqueRules.filter _
  operators := h.operators.filter _
  apart k := by
    refine indexOf_apart ((h.apart k).imp (fun hnone hmem => ?_) fun hnone hmem => ?_)
      (h.rules.filter _) (h.opaqueRules.filter _)
    · exact h.rules.eq_none_iff.mp hnone (List.filter_sublist.map _ |>.mem hmem)
    · exact h.opaqueRules.eq_none_iff.mp hnone (List.filter_sublist.map _ |>.mem hmem)

/-- What the tables may be, a registration that throws included. -/
inductive Reachable : Registries → Prop
  /-- at the start, and after `ResetSyntaxPlugins` -/
  | empty : Reachable {}
  | syntaxPlugin {r : Registries} (plugin : Option SyntaxPlugin) (h : Reachable r) :
      Reachable (state (registerSyntaxPlugin plugin r))
  | prelude {r : Registries} (name : Text) (source : Option Text) (h : Reachable r) :
      Reachable (state (registerSyntaxPluginPrelude name source r))
  | operators {r : Registries} (name : Text) (operators : Option (Table BinaryOperatorRule))
      (h : Reachable r) : Reachable (state (registerPluginBinaryOperators name operators r))
  | opaqueRules {r : Registries} (name : Text) (table : Option (Table OpaqueSyntaxRule))
      (h : Reachable r) : Reachable (state (registerOpaqueSyntaxRules name table r))
  | resources {r : Registries} (name : Text) (resources : Option (Table ResourceDescriptor))
      (h : Reachable r) : Reachable (state (registerPluginResources name resources r))
  | virtualModules {r : Registries} (name : Text) (modules : Option (List VirtualModule))
      (h : Reachable r) : Reachable (registerPluginVirtualModules name modules r)
  | unregister {r : Registries} (name : Text) (h : Reachable r) : Reachable (unregister name r)

theorem Reachable.consistent (h : Reachable r) : Consistent r := by
  induction h with
  | empty => exact .empty
  | syntaxPlugin plugin _ ih => exact consistent_syntaxPlugin plugin _ ih
  | prelude name source _ ih => exact consistent_prelude name source _ ih
  | operators name operators _ ih => exact consistent_operators name operators _ ih
  | opaqueRules name table _ ih => exact consistent_opaqueTable name table _ ih
  | resources name resources _ ih => exact consistent_resources name resources _ ih
  | virtualModules name modules _ ih => exact consistent_virtualModules name modules ih
  | unregister name _ ih => exact ih.unregister name

end Plugin

end Absolute

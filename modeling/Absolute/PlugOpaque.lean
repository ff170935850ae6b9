import Absolute.PlugConsistent
import Absolute.PsTokenTexts

/-!
# The dispatch of opaque rules

`TryParseOpaquePluginStatement` looks up the text of one token among the keywords that rules are
registered under. A keyword with a namespace is no token's text, so that its rule is not called
where it is written; the others are called exactly where theirs is
(`dispatches_iff_isIdentifier`).
-/

namespace Absolute

namespace Plugin

open Raising Registries Lexer

variable {r : Registries}

/-! ## The statement -/

/-- What the parser of a rule leaves: how many tokens it has consumed, and its node, if the node is
complete. -/
structure OpaqueParseResult (Node : Type) where
  succeeded : Bool
  errorMessage : Option Text
  index : ℕ
  node : Option Node

/-- How a call of a parser ends; what is thrown may be no `std::exception`. -/
inductive OpaqueParse (Node : Type) where
  | threw (what : Option Text)
  | returned (result : OpaqueParseResult Node)

inductive OpaqueError where
  | threw (pluginName : Text) (trigger : Position) (what : Text)
  | threwUnknown (pluginName : Text) (trigger : Position)
  | failed (pluginName : Text) (trigger : Position) (detail : Text)
  | invalidTokenCount (pluginName : Text) (trigger : Position)
  | invalidNode (pluginName : Text) (trigger : Position)

structure OpaquePluginStmt (Node : Type) where
  pluginName : Text
  keyword : Text
  node : Node

/-- The callbacks by their addresses, with their data and the tokens that are left. -/
abbrev Parsers (Node : Type) : Type := ℕ → ℕ → List Token → OpaqueParse Node

section Statement

variable {Node : Type} (parse : Parsers Node)

/-- `opaqueRulesByKeyword.find(tokens[position].value)` -/
def opaqueRuleAt (r : Registries) (tokens : List Token) (position : ℕ) : Option RegisteredRule := do
  let token ← tokens[position]?
  let found ← r.opaqueRulesByKeyword token.value
  r.opaqueRules[found]?

/-- The rule is called, and its result looked at. -/
def callOpaqueRule (rule : RegisteredRule) (trigger : Position) (views : List Token) :
    Except OpaqueError (OpaquePluginStmt Node × ℕ) :=
  match parse rule.callback rule.userData views with
  | .threw (some what) => .error (.threw rule.pluginName trigger what)
  | .threw none => .error (.threwUnknown rule.pluginName trigger)
  | .returned result =>
      if !result.succeeded then
        .error (.failed rule.pluginName trigger
          (result.errorMessage.getD "parser rejected input".toList))
      else if result.index = 0 ∨ result.index > views.length then
        .error (.invalidTokenCount rule.pluginName trigger)
      else
        match result.node with
        | none => .error (.invalidNode rule.pluginName trigger)
        | some node => .ok (⟨rule.pluginName, rule.keyword, node⟩, result.index)

/-- The statement, if there is one, and the position after it. -/
def tryParseOpaquePluginStatement (r : Registries) (tokens : List Token) (position : ℕ) :
    Except OpaqueError (Option (OpaquePluginStmt Node) × ℕ) :=
  match tokens[position]?, opaqueRuleAt r tokens position with
  | some trigger, some rule =>
      (callOpaqueRule parse rule trigger.pos (tokens.drop position)).map fun parsed =>
        (some parsed.1, position + parsed.2)
  | _, _ => .ok (none, position)

end Statement

/-! ## What is registered -/

/-- The tokens from the position on start with the texts that the keyword is lexed to. -/
def Spells (r : Registries) (tokens : List Token) (position : ℕ) (keyword : Text) : Prop :=
  ∃ spelled, lexer r.hasKeyword keyword = .ok spelled ∧
    spelled.map (·.value) <+: (tokens.drop position).map (·.value)

theorem word_of_isIdentifier {w : Text} (h : isIdentifier w = true) : PlainWord w := by
  cases w with
  | nil => cases h
  | cons c v =>
    simp only [isIdentifier, Bool.and_eq_true, List.all_eq_true] at h
    refine ⟨c, v, rfl, h.1, fun d hd => ?_⟩
    have := h.2 d hd
    simp only [Regex.isWord, Bool.or_eq_true, decide_eq_true_eq] at this ⊢
    exact this.symm

theorem isIdentifier_of_word {w : Text} (h : PlainWord w) : isIdentifier w = true := by
  obtain ⟨c, v, rfl, hc, hv⟩ := h
  simp only [isIdentifier, Bool.and_eq_true, List.all_eq_true]
  refine ⟨hc, fun d hd => ?_⟩
  have := hv d hd
  simp only [Regex.isWord, Bool.or_eq_true, decide_eq_true_eq] at this ⊢
  exact this.symm

/-- What a rule can be registered under. -/
def Named (keyword : Text) : Prop := (PlainWord keyword ∧ keyword ∉ keywords) ∨ Qualified keyword

/-- Every opaque rule has such a keyword. -/
def NamedRules (r : Registries) : Prop := ∀ rule ∈ r.opaqueRules, Named rule.keyword

theorem named_of_opaqueRuleFault {name : Text} {rule : OpaqueSyntaxRule} {seen : List Text}
    (h : opaqueRuleFault r name rule seen = none) : Named (opaqueKeyword rule) := by
  unfold opaqueRuleFault at h
  dsimp only at h
  split at h
  · cases h
  rename_i hidentifier
  split at h
  · cases h
  split at h
  · cases h
  rename_i hcore
  have hword := word_of_isIdentifier (Bool.not_eq_false _ ▸ hidentifier)
  unfold opaqueKeyword at hcore ⊢
  split
  · rename_i hspace
    rw [if_pos hspace] at hcore
    exact .inl ⟨hword, hcore⟩
  · exact .inr ⟨_, _, rfl, hword⟩

theorem fault_of_rowsFault {α : Type} {fault : α → List Text → Option RegisterError}
    {key : α → Text} {seen : List Text} {rows : List α} (h : rowsFault fault key seen rows = none) :
    ∀ row ∈ rows, ∃ seen, fault row seen = none := by
  induction rows generalizing seen with
  | nil => exact fun row hrow => by cases hrow
  | cons row rows ih =>
    rw [rowsFault] at h
    cases hfault : fault row seen with
    | some e =>
      rw [hfault] at h
      cases h
    | none =>
      rw [hfault] at h
      intro row' hrow'
      rcases List.mem_cons.mp hrow' with rfl | hrow'
      · exact ⟨seen, hfault⟩
      · exact ih h row' hrow'

/-- Rows that are added one after the other. -/
theorem NamedRules.foldl {α : Type} {add : Registries → α → Registries} {rows : List α}
    (h : NamedRules r) (hadd : ∀ r, NamedRules r → ∀ row ∈ rows, NamedRules (add r row)) :
    NamedRules (rows.foldl add r) :=
  List.foldlRecOn rows add h hadd

theorem NamedRules.addOpaqueRule (h : NamedRules r) {rule : OpaqueSyntaxRule}
    (hrule : Named (opaqueKeyword rule)) (name : Text) :
    NamedRules (addOpaqueRule name r rule) := by
  intro rule' hrule'
  rcases List.mem_append.mp hrule' with hold | hnew
  · exact h rule' hold
  · rw [List.mem_singleton.mp hnew]
    exact hrule

theorem Reachable.namedRules (h : Reachable r) : NamedRules r := by
  induction h with
  | empty => exact fun rule hrule => by cases hrule
  | syntaxPlugin plugin _ ih =>
    cases plugin with
    | none => exact ih
    | some plugin =>
      have hkeeps : Keeps NamedRules (registerSyntaxPlugin (some plugin)) :=
        keeps_guarded fun r hr _ => NamedRules.foldl hr fun r hr _ _ => hr
      exact hkeeps _ ih
  | prelude name source _ ih =>
    refine keeps_guarded (fun r hr _ => ?_) _ ih
    unfold addPrelude
    split
    · exact hr
    · exact hr
  | operators name operators _ ih =>
    cases operators with
    | none => exact ih
    | some operators =>
      refine keeps_guarded (fun r hr _ => ?_) _ ih
      exact NamedRules.foldl hr fun r hr _ _ => hr
  | opaqueRules name table _ ih =>
    cases table with
    | none => exact ih
    | some table =>
      refine keeps_guarded (fun r hr hfault => ?_) _ ih
      unfold opaqueTableFault at hfault
      split at hfault
      · cases hfault
      refine NamedRules.foldl hr fun r' hr' row hrow => ?_
      obtain ⟨seen, hnone⟩ := fault_of_rowsFault hfault row hrow
      exact hr'.addOpaqueRule (named_of_opaqueRuleFault hnone) name
  | resources name resources _ ih =>
    cases resources with
    | none => exact ih
    | some resources =>
      refine (Keeps.guarded.bind fun _ => Keeps.forM fun descriptor _ => ?_) _ ih
      exact keeps_guarded fun r hr _ => hr
  | virtualModules name modules _ ih =>
    cases modules with
    | none => exact ih
    | some modules =>
      refine NamedRules.foldl ih fun r hr mod _ => ?_
      unfold addVirtualModule
      split
      · exact hr
      · exact hr
  | unregister name _ ih => exact fun rule hrule => ih rule (List.mem_of_mem_filter hrule)

/-! ## The dispatch -/

/-- The rule that is called is the one whose keyword is the text of the token. -/
theorem opaqueRuleAt_iff (h : Consistent r) {rule : RegisteredRule} (hrule : rule ∈ r.opaqueRules)
    {tokens : List Token} {position : ℕ} : opaqueRuleAt r tokens position = some rule ↔
      ∃ token, tokens[position]? = some token ∧ token.value = rule.keyword := by
  unfold opaqueRuleAt
  constructor
  · intro heq
    obtain ⟨token, htoken, heq⟩ := Option.bind_eq_some_iff.mp heq
    obtain ⟨found, hfound, heq⟩ := Option.bind_eq_some_iff.mp heq
    have hkeyword := (h.opaqueRules token.value found).mp hfound
    rw [heq] at hkeyword
    exact ⟨token, htoken, (Option.some.inj hkeyword).symm⟩
  · rintro ⟨token, htoken, hvalue⟩
    obtain ⟨found, hfound⟩ := List.getElem?_of_mem hrule
    have hindex := (h.opaqueRules rule.keyword found).mpr (by rw [hfound]; rfl)
    simp only [htoken, Option.bind_eq_bind, Option.bind_some, hvalue, hindex, hfound]

/-- A rule is called exactly where its keyword is written. -/
def Dispatches (r : Registries) (rule : RegisteredRule) : Prop := ∀ tokens position,
  opaqueRuleAt r tokens position = some rule ↔ Spells r tokens position rule.keyword

theorem spells_word {w : Text} (h : PlainWord w) (hkey : w ∉ keywords) {tokens : List Token}
    {position : ℕ} :
    Spells r tokens position w ↔ ∃ token, tokens[position]? = some token ∧ token.value = w := by
  have hlexer := @lexer_word r.hasKeyword w h hkey
  have hhead : (tokens.drop position).head? = tokens[position]? := by
    rw [List.head?_drop]
  unfold Spells
  rw [← hhead]
  constructor
  · rintro ⟨spelled, hspelled, hstarts⟩
    rw [hlexer] at hspelled
    obtain rfl := Except.ok.inj hspelled
    cases hrest : tokens.drop position with
    | nil => simp [hrest] at hstarts
    | cons token rest =>
      rw [hrest] at hstarts
      exact ⟨token, rfl, (List.cons_prefix_cons.mp hstarts).1.symm⟩
  · rintro ⟨token, htoken, hvalue⟩
    refine ⟨_, hlexer, ?_⟩
    cases hrest : tokens.drop position with
    | nil => simp [hrest] at htoken
    | cons token' rest =>
      rw [hrest] at htoken
      obtain rfl := Option.some.inj htoken
      exact List.cons_prefix_cons.mpr ⟨hvalue.symm, List.nil_prefix⟩

theorem not_dispatches_of_qualified (h : Consistent r) {rule : RegisteredRule}
    (hrule : rule ∈ r.opaqueRules) (hqualified : Qualified rule.keyword) :
    ¬Dispatches r rule := by
  intro hdispatches
  -- a token with the keyword for its text is handed to the rule, so that the keyword is lexed
  have hcalled : opaqueRuleAt r [⟨.identifier, rule.keyword, ⟨1, 1⟩⟩] 0 = some rule :=
    (opaqueRuleAt_iff h hrule).mpr ⟨_, rfl, rfl⟩
  obtain ⟨spelled, hlexer, -⟩ := (hdispatches _ _).mp hcalled
  obtain ⟨token, htoken, hvalue⟩ := (opaqueRuleAt_iff h hrule).mp
    ((hdispatches spelled 0).mpr ⟨spelled, hlexer, List.prefix_refl _⟩)
  have hlexed := lexed_of_lexerLoop le_rfl (apart_start rule.keyword) hlexer
  exact not_qualified_of_lexed hlexed token (List.mem_of_getElem? htoken) (hvalue ▸ hqualified)

theorem dispatches_iff_isIdentifier (h : Reachable r) {rule : RegisteredRule}
    (hrule : rule ∈ r.opaqueRules) : Dispatches r rule ↔ isIdentifier rule.keyword = true := by
  have hconsistent := h.consistent
  rcases h.namedRules rule hrule with ⟨hword, hkey⟩ | hqualified
  · refine iff_of_true (fun tokens position => ?_) (isIdentifier_of_word hword)
    rw [opaqueRuleAt_iff hconsistent hrule, spells_word hword hkey]
  · refine iff_of_false (not_dispatches_of_qualified hconsistent hrule hqualified) fun hid => ?_
    exact not_qualified_of_words (word_of_isIdentifier hid).isWord hqualified

/-- Every rule is called exactly where its keyword is written, and no rule where the keyword of
another is. -/
structure OwnKeywords (r : Registries) : Prop where
  dispatches : ∀ rule ∈ r.opaqueRules, Dispatches r rule
  apart : ∀ rule ∈ r.opaqueRules, ∀ rule' ∈ r.opaqueRules, rule.keyword ≠ rule'.keyword →
    ∀ tokens position, Spells r tokens position rule'.keyword →
      opaqueRuleAt r tokens position ≠ some rule

theorem ownKeywords_iff (h : Reachable r) :
    OwnKeywords r ↔ ∀ rule ∈ r.opaqueRules, isIdentifier rule.keyword = true := by
  constructor
  · intro hown rule hrule
    exact (dispatches_iff_isIdentifier h hrule).mp (hown.dispatches rule hrule)
  · intro hall
    have hdispatches (rule) (hrule : rule ∈ r.opaqueRules) : Dispatches r rule :=
      (dispatches_iff_isIdentifier h hrule).mpr (hall rule hrule)
    refine ⟨hdispatches, fun rule hrule rule' hrule' hne tokens position hspells heq => hne ?_⟩
    have heq' := (hdispatches rule' hrule' tokens position).mpr hspells
    rw [Option.some.inj (heq.symm.trans heq')]

/-- One plugin with one rule. -/
def oneRule (keyword : Text) (ruleNamespace : Option Text) : Registries :=
  state (registerOpaqueSyntaxRules "gpu".toList
    (some (.rows [⟨some keyword, ruleNamespace, some 1, 0⟩])) {})

theorem reachable_oneRule (keyword : Text) (ruleNamespace : Option Text) :
    Reachable (oneRule keyword ruleNamespace) :=
  .opaqueRules _ _ .empty

theorem ownKeywords_iff_kernel : OwnKeywords (oneRule "kernel".toList none) := by
  refine (ownKeywords_iff (reachable_oneRule _ _)).mpr ?_
  decide

/-- `gpu.kernel` -/
theorem not_ownKeywords :
    Reachable (oneRule "kernel".toList (some "gpu".toList)) ∧
      ¬OwnKeywords (oneRule "kernel".toList (some "gpu".toList)) := by
  refine ⟨reachable_oneRule _ _, fun hown => ?_⟩
  have hspells : Spells (oneRule "kernel".toList (some "gpu".toList))
      [⟨.identifier, "gpu".toList, ⟨1, 1⟩⟩, ⟨.delimiter, ['.'], ⟨1, 4⟩⟩,
        ⟨.identifier, "kernel".toList, ⟨1, 5⟩⟩] 0 "gpu.kernel".toList :=
    ⟨_, rfl, by decide⟩
  have hcalled := (hown.dispatches ⟨"gpu".toList, "gpu.kernel".toList, 1, 0⟩
    (List.mem_singleton.mpr rfl) _ _).mpr hspells
  cases hcalled

end Plugin

end Absolute

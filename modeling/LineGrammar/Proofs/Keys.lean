import LineGrammar.Proofs.Owed
import LineGrammar.Proofs.Recognition

/-! Names that are put together. The key of a function or of a block is cut at its colons, which no plain
name has, and the name of a rule body at its last underscore, since its number has none. -/

namespace LineGrammar

/-- The name is no compound one. -/
def IsPlain (name : String) : Prop := ':' ∉ name.toList

instance (name : String) : Decidable (IsPlain name) := inferInstanceAs (Decidable (':' ∉ name.toList))

theorem isPlain_of_isNameText {name : String} (h : IsNameText name.toList) : IsPlain name :=
  fun hmem => absurd (h.chars ':' hmem) (by decide)

theorem append_colons_inj {front front' back back' : String} (h : IsPlain front) (h' : IsPlain front')
    (heq : front ++ "::" ++ back = front' ++ "::" ++ back') : front = front' ∧ back = back' := by
  have hlist := congrArg String.toList heq
  simp only [String.toList_append, List.append_assoc] at hlist
  have hfront : front.toList = front'.toList := front_eq_of_append h h' hlist
  rw [hfront] at hlist
  refine ⟨String.toList_inj.1 hfront, String.toList_inj.1 ?_⟩
  exact List.append_cancel_left (List.append_cancel_left hlist)

theorem functionKey_inj {rule rule' walker walker' function function' : String} (hrule : IsPlain rule)
    (hrule' : IsPlain rule') (hwalker : IsPlain walker) (hwalker' : IsPlain walker')
    (h : functionKey rule walker function = functionKey rule' walker' function') :
    rule = rule' ∧ walker = walker' ∧ function = function' := by
  have hassoc : ∀ r w f : String, functionKey r w f = r ++ "::" ++ (w ++ "::" ++ f) := by
    intro r w f
    simp [functionKey, String.append_assoc]
  rw [hassoc, hassoc] at h
  obtain ⟨hr, hrest⟩ := append_colons_inj hrule hrule' h
  exact ⟨hr, append_colons_inj hwalker hwalker' hrest⟩

/-- A key of two parts is no key of three. -/
theorem blockKey_inj {rule? rule?' : Option String} {walker walker' function function' : String}
    (hrule : ∀ rule ∈ rule?, IsPlain rule) (hrule' : ∀ rule ∈ rule?', IsPlain rule)
    (hwalker : IsPlain walker) (hwalker' : IsPlain walker') (hfunction : IsPlain function)
    (hfunction' : IsPlain function')
    (h : blockKey rule? walker function = blockKey rule?' walker' function') :
    rule? = rule?' ∧ walker = walker' ∧ function = function' := by
  have hmixed : ∀ {rule walker walker' function function' : String}, IsPlain rule → IsPlain walker' →
      IsPlain function' → functionKey rule walker function ≠ walker' ++ "::" ++ function' := by
    intro rule walker walker' function function' hrule hwalker hfunction heq
    have hassoc : functionKey rule walker function = rule ++ "::" ++ (walker ++ "::" ++ function) := by
      simp [functionKey, String.append_assoc]
    rw [hassoc] at heq
    obtain ⟨-, rfl⟩ := append_colons_inj hrule hwalker heq
    exact hfunction (by simp)
  cases rule? with
  | none =>
    cases rule?' with
    | none => exact ⟨rfl, append_colons_inj hwalker hwalker' h⟩
    | some rule' => exact absurd h.symm (hmixed (hrule' rule' rfl) hwalker hfunction)
  | some rule =>
    cases rule?' with
    | none => exact absurd h (hmixed (hrule rule rfl) hwalker' hfunction')
    | some rule' =>
      obtain ⟨rfl, rest⟩ := functionKey_inj (hrule rule rfl) (hrule' rule' rfl) hwalker hwalker' h
      exact ⟨rfl, rest⟩

/-- The name of the body of a rule with so many bodies before it. -/
def bodyName (rule : String) : Nat → String
  | 0 => rule
  | n + 1 => rule ++ "_" ++ toString (n + 1)

theorem Index.nextInternalName_eq (ix : Index) (rule : String) :
    ix.nextInternalName rule = bodyName rule (ix.ruleCount rule) := by
  unfold Index.nextInternalName
  cases ix.ruleCount rule <;> rfl

theorem toString_injective {m n : Nat} (h : toString m = toString n) : m = n := by
  have hdigits : Nat.toDigits 10 m = Nat.toDigits 10 n := by
    simpa only [Nat.toString_eq_repr, Nat.toList_repr] using congrArg String.toList h
  simpa using congrArg (fun digits => Nat.ofDigitChars 10 digits 0) hdigits

/-- A numbered name is cut at its last underscore. -/
theorem numbered_inj {rule rule' : String} {m n : Nat}
    (h : rule ++ "_" ++ toString m = rule' ++ "_" ++ toString n) : rule = rule' ∧ m = n := by
  have hlist := congrArg (fun name => name.toList.reverse) h
  have hunderscore : ("_" : String).toList.reverse = ['_'] := rfl
  simp only [String.toList_append, List.reverse_append, hunderscore, List.singleton_append] at hlist
  have hnumber := front_eq_of_append (by simp) (by simp) hlist
  rw [hnumber] at hlist
  have hrule := List.tail_eq_of_cons_eq (List.append_cancel_left hlist)
  exact ⟨String.toList_inj.1 (List.reverse_inj.1 hrule),
    toString_injective (String.toList_inj.1 (List.reverse_inj.1 hnumber))⟩

theorem ne_numbered (rule : String) (n : Nat) : rule ≠ rule ++ "_" ++ toString n := by
  intro h
  have hlength := congrArg (fun name => name.toList.length) h
  simp at hlength

theorem bodyName_injective (rule : String) {m n : Nat} (h : bodyName rule m = bodyName rule n) :
    m = n := by
  cases m with
  | zero => cases n with
    | zero => rfl
    | succ n => exact absurd h (ne_numbered rule _)
  | succ m => cases n with
    | zero => exact absurd h.symm (ne_numbered rule _)
    | succ n => exact (numbered_inj h).2

/-- Bodies of two rules that share a name: one of them is the first body of its rule. -/
theorem rule_eq_of_bodyName_eq {rule rule' : String} {m n : Nat}
    (h : bodyName rule m = bodyName rule' n) :
    rule = rule' ∨ bodyName rule m = rule' ∨ bodyName rule' n = rule := by
  cases m with
  | zero => exact .inr (.inr h.symm)
  | succ m => cases n with
    | zero => exact .inr (.inl h)
    | succ n => exact .inl (numbered_inj h).1

theorem isPlain_bodyName {rule : String} (h : IsPlain rule) (n : Nat) : IsPlain (bodyName rule n) := by
  cases n with
  | zero => exact h
  | succ n =>
    intro hmem
    have hunderscore : ("_" : String).toList = ['_'] := rfl
    have hnumber : ':' ∉ Nat.toDigits 10 (n + 1) := fun hdigit =>
      absurd (Nat.isDigit_of_mem_toDigits (by decide) (by decide) hdigit) (by decide)
    simp [bodyName, hunderscore, hnumber] at hmem
    exact h hmem

end LineGrammar

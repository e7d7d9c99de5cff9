import FieldFilter.Proofs.Session.Nesting
import FieldFilter.Proofs.Session.Output

/-!
# Edits and validity

While the constructor tab is open and groups may not nest deeper than in filters, a session is valid
exactly if all its conditions are accepted (`isValid_iff_accepted`). Edits bring in no conditions
but new ones, which are accepted (`accepted_newCondition`). So a valid session stays valid, whatever
is added, moved, rejoined or deleted; an update of a condition can make it invalid
(`edits_keep_valid`).
-/

namespace FieldFilter.Session

open FieldFilter.Group

theorem accepted_newCondition (s : Session) (today : Day) :
    (s.newCondition today).Accepted s.fields := by
  intro e written
  unfold newCondition at written
  cases fields : s.fields with
  | nil =>
    rw [fields] at written
    cases written
  | cons f rest =>
    rw [fields] at written
    obtain ⟨-, ⟨unary, -⟩ | ⟨-, v, value, -, rfl⟩⟩ := Condition.expression?_cases written
    · cases unary
    · obtain rfl := Option.some.inj value
      apply Validation.checkAt_condition_iff.2
      have first : Validation.First (f :: rest) f.key f := ⟨[], rest, rfl, rfl, by simp⟩
      have takes : Validation.Takes f.type .scalar [f.type.defaultValue today] :=
        .scalar (Validation.fits_defaultValue f.type today)
      exact Validation.checkCondition_iff.2 ⟨f.key, f, _, rfl, first, rfl, takes⟩

/-! ## Validity -/

theorem judgeOutline_isOk_iff {fields : List Field} {g : Group} :
    (judgeOutline fields g).1.isOk = true ↔
      ∀ e, g.expression? = some e → Validation.check fields e = .ok () := by
  obtain ⟨nothing, verdict⟩ | ⟨v, written, ⟨accepted, verdict⟩ | ⟨fault, refused, verdict⟩⟩ :=
    judgeOutline_cases fields g
  · simp [verdict, nothing, Except.isOk, Except.toBool]
  · simp [verdict, written, accepted, Except.isOk, Except.toBool]
  · simp [verdict, written, refused, Except.isOk, Except.toBool]

/-- With the constructor tab open, only the conditions decide. -/
theorem isValid_iff_accepted {s : Session} (h : Reachable s) (tab : s.tab = .constructor)
    (nesting : s.preferences.maxNesting ≤ Limits.filterNesting) :
    s.isValid = true ↔ ∀ c ∈ s.root.leaves, c.Accepted s.fields := by
  -- also what is left out of the expression now must not be too deep when it comes to be written
  have low : s.root.height ≤ Limits.filterNesting := by
    have bound := h.height_le
    omega
  rw [isValid, h.coherent.outline (textCounts_of_constructor tab), judgeOutline_isOk_iff,
    check_outline_iff h.sound.intact low]

theorem settled_keeps {s : Session} {o : Outcome Reply} (h : Settled s o) :
    o.session.fields = s.fields ∧ o.session.preferences = s.preferences ∧
      o.session.tab = s.tab := by
  cases h with
  | refused gives =>
    rw [gives.session]
    exact ⟨rfl, rfl, rfl⟩
  | edited gives _ fields preferences tab _ =>
    rw [gives.session, revalidate_session]
    exact ⟨fields, preferences, tab⟩

theorem settled_accepted {s : Session} {o : Outcome Reply} (h : Settled s o)
    (accepted : ∀ c ∈ s.root.leaves, c.Accepted s.fields) :
    ∀ c ∈ o.session.root.leaves, c.Accepted s.fields := by
  cases h with
  | refused gives =>
    rw [gives.session]
    exact accepted
  | edited gives _ _ _ _ edit =>
    intro c hc
    rw [gives.session, revalidate_session] at hc
    obtain old | ⟨today, rfl⟩ := leaf_of_edit edit hc
    · exact accepted c old
    · exact accepted_newCondition s today

/-! ## Updates -/

/-- Some field is not known. -/
theorem exists_unknown (fields : List Field) :
    ∃ name, name ≠ "" ∧ ∀ f ∈ fields, f.key ≠ name := by
  have long : ∃ n, ∀ f ∈ fields, f.key.length < n + 1 := by
    induction fields with
    | nil => exact ⟨0, by simp⟩
    | cons f rest ih =>
      obtain ⟨n, others⟩ := ih
      refine ⟨max n f.key.length, ?_⟩
      intro g hg
      obtain rfl | hg := List.mem_cons.1 hg
      · omega
      · have short := others g hg
        omega
  -- a name longer than every key
  obtain ⟨n, shorter⟩ := long
  have length : (String.ofList (List.replicate (n + 1) 'a')).length = n + 1 := by simp
  refine ⟨String.ofList (List.replicate (n + 1) 'a'), ?_, ?_⟩
  · intro empty
    rw [empty] at length
    cases length
  · intro f hf same
    have short := shorter f hf
    rw [same, length] at short
    omega

/-- A condition on a field that is not known is not accepted. -/
theorem not_accepted_of_unknown {fields : List Field} {name : String} (named : name ≠ "")
    (unknown : ∀ f ∈ fields, f.key ≠ name) (c : Condition) :
    ¬ (c.apply ⟨some name, some .has, none⟩).Accepted fields := by
  intro accepted
  have complete : (c.apply ⟨some name, some .has, none⟩).Complete := ⟨named, .inl rfl⟩
  obtain ⟨e, written⟩ := Condition.exists_of_complete complete
  have checked := accepted e written
  obtain ⟨-, ⟨-, rfl⟩ | ⟨binary, -⟩⟩ := Condition.expression?_cases written
  · obtain ⟨key, f, values, same, ⟨before, after, split, hf, -⟩, -⟩ :=
      Validation.checkCondition_iff.1 (Validation.checkAt_condition_iff.1 checked)
    obtain ⟨⟨-, rfl⟩, -⟩ : ("get" = Expression.getter ∧ name = key) ∧ values = [] := by
      simpa [Expression.fieldReference, Condition.apply] using same
    exact unknown f (by simp [split]) hf
  · cases binary

/-- Any condition can be updated so that the session is not valid. -/
theorem exists_invalid_update {s : Session} (h : Reachable s) (tab : s.tab = .constructor)
    (nesting : s.preferences.maxNesting ≤ Limits.filterNesting) {c : Condition}
    (hc : c ∈ s.root.leaves) : ∃ patch, Call.Proper (.updateCondition c.id patch) ∧
      (s.perform (.updateCondition c.id patch)).session.isValid = false := by
  obtain ⟨name, named, unknown⟩ := exists_unknown s.fields
  let patch : Patch := ⟨some name, some .has, none⟩
  have proper : Call.Proper (.updateCondition c.id patch) := nofun
  obtain ⟨root, modified⟩ :=
    Option.ne_none_iff_exists'.1 (modifyCondition_ne_none hc (Condition.apply patch))
  have session : (s.perform (.updateCondition c.id patch)).session =
      { s with root := root, verdict := ({ s with root := root } : Session).judge } := by
    simp only [perform, updateCondition, modified]
    exact revalidate_session _
  have reachable := Reachable.call _ proper h
  refine ⟨patch, proper, ?_⟩
  rw [session] at reachable ⊢
  rw [← Bool.not_eq_true, isValid_iff_accepted reachable tab nesting]
  intro all
  obtain ⟨d, -, -, changed⟩ := mem_of_modifyCondition modified
  exact not_accepted_of_unknown named unknown d (all _ changed)

/-! ## Edits -/

theorem Structural.proper {c : Call} (h : Structural c) : c.Proper := by
  cases c with
  | updateCondition => exact h.elim
  | _ => exact trivial

/-- While the constructor tab is open and the preferences let groups nest no deeper than filters
may, a valid session is valid after every call that adds, moves, rejoins or deletes nodes, whatever
its arguments. Any condition can be updated so that the session is not valid any more. -/
theorem edits_keep_valid {s : Session} (h : Reachable s) (tab : s.tab = .constructor)
    (nesting : s.preferences.maxNesting ≤ Limits.filterNesting) (valid : s.isValid = true) :
    (∀ c, Structural c → (s.perform c).session.isValid = true) ∧
    ∀ c ∈ s.root.leaves, ∃ patch, Call.Proper (.updateCondition c.id patch) ∧
      (s.perform (.updateCondition c.id patch)).session.isValid = false := by
  constructor
  · intro c structural
    have settled := perform_settled h.sound structural
    obtain ⟨fields, preferences, same⟩ := settled_keeps settled
    have reachable : Reachable (s.perform c).session := .call c structural.proper h
    apply (isValid_iff_accepted reachable (same.trans tab) (preferences ▸ nesting)).2
    rw [fields]
    exact settled_accepted settled ((isValid_iff_accepted h tab nesting).1 valid)
  · intro c hc
    exact exists_invalid_update h tab nesting hc

/-- A condition is added to the group of another one, and an update takes validity away. -/
theorem edits_keep_valid_single : Reachable single ∧ single.tab = .constructor ∧
    single.preferences.maxNesting ≤ Limits.filterNesting ∧ single.isValid = true ∧
    (single.perform (.addCondition ⟨2024, 2, 29⟩ 1)).session.isValid = true ∧
    ∃ c ∈ single.root.leaves, ∃ patch,
      (single.perform (.updateCondition c.id patch)).session.isValid = false := by
  have reachable : Reachable single := .start ..
  have tab : single.tab = .constructor := by decide +kernel
  have nesting : single.preferences.maxNesting ≤ Limits.filterNesting := by decide +kernel
  have valid : single.isValid = true := by decide +kernel
  have leaf : ∃ c, c ∈ single.root.leaves := by
    apply List.exists_mem_of_length_pos
    decide +kernel
  obtain ⟨keeps, updates⟩ := edits_keep_valid reachable tab nesting valid
  obtain ⟨c, hc⟩ := leaf
  obtain ⟨patch, -, invalid⟩ := updates c hc
  exact ⟨reachable, tab, nesting, valid, keeps (.addCondition ⟨2024, 2, 29⟩ 1) trivial, c, hc,
    patch, invalid⟩

end FieldFilter.Session

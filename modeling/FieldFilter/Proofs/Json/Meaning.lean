import FieldFilter.Json.Reader
import FieldFilter.Proofs.Decimal.Numerals
import FieldFilter.Proofs.Json.Values

/-!
# Written values and what they mean

What a written value means is proper (`proper_of_value?`), and a proper value is meant by the form
in which it is written (`value?_raw`).
-/

namespace FieldFilter

variable {α : Type}

/-! ## Members in order -/

namespace Json

theorem keepLast_append (done : List (String × α)) (ms : List (String × α)) :
    keepLast done ms = done.reverse ++ keepLast [] ms := by
  induction ms generalizing done with
  | nil => simp [keepLast]
  | cons a rest ih =>
    cases rest with
    | nil => simp [keepLast]
    | cons b rest =>
      rw [keepLast, keepLast]
      split
      · exact ih done
      · rw [ih (a :: done), ih [a]]
        simp

theorem keepLast_cons_cons (a b : String × α) (rest : List (String × α)) :
    keepLast [] (a :: b :: rest) =
      if a.1 = b.1 then keepLast [] (b :: rest) else a :: keepLast [] (b :: rest) := by
  rw [keepLast]
  split
  · rfl
  · rw [keepLast_append]
    rfl

theorem mem_of_mem_keepLast {m : String × α} {ms : List (String × α)} (h : m ∈ keepLast [] ms) :
    m ∈ ms := by
  induction ms with
  | nil => cases h
  | cons a rest ih =>
    cases rest with
    | nil => exact h
    | cons b rest =>
      rw [keepLast_cons_cons] at h
      split at h
      · exact List.mem_cons_of_mem _ (ih h)
      · obtain rfl | h := List.mem_cons.1 h
        · exact List.mem_cons_self
        · exact List.mem_cons_of_mem _ (ih h)

/-- Of members in order, those that are kept ascend. -/
theorem keepLast_ascending {ms : List (String × α)} (h : ms.Pairwise (fun a b => a.1 ≤ b.1)) :
    (keepLast [] ms).Pairwise (fun a b => a.1 < b.1) := by
  induction ms with
  | nil => exact .nil
  | cons a rest ih =>
    cases rest with
    | nil => exact List.pairwise_singleton _ _
    | cons b rest =>
      obtain ⟨first, h⟩ := List.pairwise_cons.1 h
      rw [keepLast_cons_cons]
      split
      · exact ih h
      · rename_i differ
        refine List.pairwise_cons.2 ⟨fun m hm => ?_, ih h⟩
        have below : a.1 < b.1 :=
          Std.lt_of_le_of_ne (first b List.mem_cons_self) differ
        obtain rfl | later := List.mem_cons.1 (mem_of_mem_keepLast hm)
        · exact below
        · exact Std.lt_of_lt_of_le below ((List.pairwise_cons.1 h).1 m later)

theorem keepLast_of_ascending {ms : List (String × α)} (h : ms.Pairwise (fun a b => a.1 < b.1)) :
    keepLast [] ms = ms := by
  induction ms with
  | nil => rfl
  | cons a rest ih =>
    cases rest with
    | nil => rfl
    | cons b rest =>
      obtain ⟨first, h⟩ := List.pairwise_cons.1 h
      have differ := String.ne_of_lt (first b List.mem_cons_self)
      rw [keepLast_cons_cons, if_neg differ, ih h]

theorem settle_ascending (ms : List (String × α)) :
    (settle ms).Pairwise (fun a b => a.1 < b.1) := by
  refine keepLast_ascending ((List.pairwise_mergeSort ?_ ?_ ms).imp of_decide_eq_true)
  · intro a b c hab hbc
    simp only [decide_eq_true_eq] at hab hbc ⊢
    exact String.le_trans hab hbc
  · intro a b
    simpa using String.le_total a.1 b.1

theorem mem_of_mem_settle {m : String × α} {ms : List (String × α)} (h : m ∈ settle ms) :
    m ∈ ms :=
  List.mem_mergeSort.1 (mem_of_mem_keepLast h)

theorem settle_of_ascending {ms : List (String × α)} (h : ms.Pairwise (fun a b => a.1 < b.1)) :
    settle ms = ms := by
  have sorted : ms.Pairwise (fun a b => decide (a.1 ≤ b.1) = true) :=
    h.imp fun below => decide_eq_true (Std.le_of_lt below)
  rw [settle, List.mergeSort_of_pairwise sorted, keepLast_of_ascending h]

theorem raws_eq (done : List Raw) (vs : List Json) : raws done vs = done.reverse ++ vs.map raw := by
  induction vs generalizing done with
  | nil => simp [raws]
  | cons v rest ih => simp [raws, ih]

theorem rawMembers_eq (done : List (List Glyph × Raw)) (ms : List (String × Json)) :
    rawMembers done ms = done.reverse ++ ms.map fun m => (Glyph.encode m.1, m.2.raw) := by
  induction ms generalizing done with
  | nil => simp [rawMembers]
  | cons m rest ih => simp [rawMembers, ih]

end Json

/-! ## Texts -/

namespace Glyph

/-- A unit below the surrogates is a character by itself, whatever follows. -/
theorem decodeOnto_unit {code : Nat} (h : code < 0xD800) (done : List Char) (rest : List Glyph) :
    decodeOnto done (unit code :: rest) = decodeOnto (Char.ofNat code :: done) rest := by
  have high : isHighSurrogate code = false := by simp [isHighSurrogate, h]
  have low : isLowSurrogate code = false := by
    simp only [isLowSurrogate, Bool.and_eq_false_iff, decide_eq_false_iff_not]
    omega
  cases rest with
  | nil => simp [decodeOnto, high, low]
  | cons g rest => cases g <;> simp [decodeOnto, high, low]

/-- A character is meant by the glyph it is written with, whatever follows. -/
theorem decodeOnto_ofChar (done : List Char) (c : Char) (rest : List Glyph) :
    decodeOnto done (ofChar c :: rest) = decodeOnto (c :: done) rest := by
  unfold ofChar
  split
  case h_8 =>
    split
    · rename_i control
      rw [decodeOnto_unit (by omega), Char.ofNat_toNat]
    · rfl
  all_goals rfl

theorem decodeOnto_encode (done cs : List Char) :
    decodeOnto done (cs.map ofChar) = some (done.reverse ++ cs) := by
  induction cs generalizing done with
  | nil => simp [decodeOnto]
  | cons c rest ih => simp [decodeOnto_ofChar, ih]

theorem decode_encode (s : String) : decode (encode s) = some s := by
  simp [decode, encode, decodeOnto_encode]

end Glyph

/-! ## Values -/

namespace Raw

/-- Induction on a written value by way of its elements and the values of its members. -/
theorem induct {P : Raw → Prop} (null : P .null) (bool : ∀ b, P (.bool b))
    (number : ∀ n, P (.number n)) (string : ∀ glyphs, P (.string glyphs))
    (array : ∀ items, (∀ r ∈ items, P r) → P (.array items))
    (object : ∀ members, (∀ m ∈ members, P m.2) → P (.object members)) : ∀ r, P r
  | .null => null
  | .bool b => bool b
  | .number n => number n
  | .string glyphs => string glyphs
  | .array items => array items fun r hm =>
    have : sizeOf r < sizeOf items := List.sizeOf_lt_of_mem hm
    induct null bool number string array object r
  | .object members => object members fun m hm =>
    have : sizeOf m < sizeOf members := List.sizeOf_lt_of_mem hm
    have : sizeOf m.2 < sizeOf m := by obtain ⟨k, r⟩ := m; simp only [Prod.mk.sizeOf_spec]; omega
    induct null bool number string array object m.2
termination_by r => sizeOf r
decreasing_by all_goals simp only [Raw.array.sizeOf_spec, Raw.object.sizeOf_spec]; omega

theorem proper_of_number? {n : Decimal.Numeral} {v : Json} (h : number? n = some v) :
    v.Proper := by
  unfold number? at h
  dsimp only at h
  split at h
  · rename_i word
    simp only [Bool.and_eq_true, decide_eq_true_eq] at word
    obtain rfl := Option.some.inj h
    exact ⟨by omega, by exact_mod_cast word.2⟩
  · split at h
    · rename_i word
      simp only [Bool.and_eq_true, decide_eq_true_eq] at word
      obtain rfl := Option.some.inj h
      refine ⟨by omega, ?_⟩
      have : (0 : ℤ) < Decimal.wordSize := by decide
      omega
    · obtain ⟨b, read, rfl⟩ := Option.map_eq_some_iff.1 h
      exact Decimal.Scaled.normal_binary? read

theorem proper_of_values? {rs : List Raw} (each : ∀ r ∈ rs, ∀ v, r.value? = some v → v.Proper)
    {done vs : List Json} (hd : ∀ v ∈ done, v.Proper) (h : values? done rs = some vs) :
    ∀ v ∈ vs, v.Proper := by
  induction rs generalizing done with
  | nil =>
    obtain rfl := Option.some.inj h
    exact fun v hv => hd v (List.mem_reverse.1 hv)
  | cons r rest ih =>
    rw [values?] at h
    split at h
    · rename_i v read
      have first := each r List.mem_cons_self v read
      exact ih (fun r hr => each r (List.mem_cons_of_mem _ hr))
        (List.forall_mem_cons.2 ⟨first, hd⟩) h
    · cases h

theorem proper_of_memberValues? {ms : List (List Glyph × Raw)}
    (each : ∀ m ∈ ms, ∀ v, m.2.value? = some v → v.Proper) {done out : List (String × Json)}
    (hd : ∀ m ∈ done, m.2.Proper) (h : memberValues? done ms = some out) :
    ∀ m ∈ out, m.2.Proper := by
  induction ms generalizing done with
  | nil =>
    obtain rfl := Option.some.inj h
    exact fun m hm => hd m (List.mem_reverse.1 hm)
  | cons m rest ih =>
    obtain ⟨key, r⟩ := m
    rw [memberValues?] at h
    split at h
    · rename_i k v _ read
      have first := each (key, r) List.mem_cons_self v read
      exact ih (fun m hm => each m (List.mem_cons_of_mem _ hm))
        (List.forall_mem_cons.2 ⟨first, hd⟩) h
    · cases h

/-- What a written value means is proper. -/
theorem proper_of_value? (r : Raw) : ∀ v, r.value? = some v → v.Proper := by
  induction r using induct with
  | null =>
    intro v h
    obtain rfl := Option.some.inj h
    trivial
  | bool b =>
    intro v h
    obtain rfl := Option.some.inj h
    trivial
  | number n => exact fun v h => proper_of_number? h
  | string glyphs =>
    intro v h
    obtain ⟨s, -, rfl⟩ := Option.map_eq_some_iff.1 h
    trivial
  | array items ih =>
    intro v h
    obtain ⟨vs, read, rfl⟩ := Option.map_eq_some_iff.1 h
    exact Json.proper_arr.2 (proper_of_values? ih (by simp) read)
  | object members ih =>
    intro v h
    obtain ⟨ms, read, rfl⟩ := Option.map_eq_some_iff.1 h
    refine Json.proper_obj.2 ⟨Json.settle_ascending ms, fun m hm => ?_⟩
    exact proper_of_memberValues? ih (by simp) read m (Json.mem_of_mem_settle hm)

theorem number?_ofInt {z : Int} (h : (Json.int z).Proper) : number? (.ofInt z) = some (.int z) := by
  obtain ⟨lower, upper⟩ := h
  have whole : (Decimal.Numeral.ofInt z).isWhole = true := rfl
  have size : (Decimal.Numeral.ofInt z).wholeValue = z.natAbs := Decimal.value_digits _
  have sign : (Decimal.Numeral.ofInt z).negative = decide (z < 0) := rfl
  unfold number?
  dsimp only
  rw [whole, size, sign]
  by_cases negative : z < 0
  · have fits : z.natAbs ≤ Decimal.signBit := by omega
    have some : 0 < z.natAbs := by omega
    have back : -(z.natAbs : ℤ) = z := by omega
    rw [if_neg (by simp [negative]), if_pos (by simpa [negative, fits] using some), back]
  · have fits : z.natAbs < Decimal.wordSize := by omega
    have back : (z.natAbs : ℤ) = z := by omega
    rw [if_pos (by simpa [negative] using fits), back]

theorem number?_ofBinary {x : Decimal.Binary} (h : x.Normal) :
    number? (Json.realLayout.ofBinary x) = some (.real x) := by
  simp [number?, Decimal.Layout.isWhole_ofBinary, Decimal.Layout.binary?_ofBinary h]

theorem values?_raw {vs : List Json} (each : ∀ v ∈ vs, v.raw.value? = some v) (done : List Json) :
    values? done (vs.map Json.raw) = some (done.reverse ++ vs) := by
  induction vs generalizing done with
  | nil => simp [values?]
  | cons v rest ih =>
    rw [List.map_cons, values?, each v List.mem_cons_self]
    simpa using ih (fun w hw => each w (List.mem_cons_of_mem _ hw)) (v :: done)

theorem memberValues?_raw {ms : List (String × Json)} (each : ∀ m ∈ ms, m.2.raw.value? = some m.2)
    (done : List (String × Json)) :
    memberValues? done (ms.map fun m => (Glyph.encode m.1, m.2.raw)) =
      some (done.reverse ++ ms) := by
  induction ms generalizing done with
  | nil => simp [memberValues?]
  | cons m rest ih =>
    rw [List.map_cons, memberValues?, Glyph.decode_encode, each m List.mem_cons_self]
    simpa using ih (fun w hw => each w (List.mem_cons_of_mem _ hw)) (m :: done)

/-- A proper value is what its written form means. -/
theorem value?_raw (v : Json) : v.Proper → v.raw.value? = some v := by
  induction v using Json.induct with
  | null => exact fun _ => rfl
  | bool b => exact fun _ => rfl
  | int z => exact fun h => number?_ofInt h
  | real x => exact fun h => number?_ofBinary h
  | str s =>
    intro _
    rw [Json.raw, value?, Glyph.decode_encode]
    rfl
  | arr items ih =>
    intro h
    rw [Json.raw, Json.raws_eq, List.reverse_nil, List.nil_append, value?,
      values?_raw (fun v hv => ih v hv (Json.proper_arr.1 h v hv))]
    rfl
  | obj members ih =>
    intro h
    obtain ⟨ascending, each⟩ := Json.proper_obj.1 h
    rw [Json.raw, Json.rawMembers_eq, List.reverse_nil, List.nil_append, value?,
      memberValues?_raw (fun m hm => ih m hm (each m hm))]
    simp [Json.settle_of_ascending ascending]

end Raw

/-- What a text means is proper. -/
theorem Json.proper_of_read? {text : String} {v : Json} (h : Json.read? text = some v) :
    v.Proper := by
  obtain ⟨r, -, meaning⟩ := Option.bind_eq_some_iff.1 h
  exact Raw.proper_of_value? r v meaning

end FieldFilter

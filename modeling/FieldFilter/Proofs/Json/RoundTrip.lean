import FieldFilter.Json.Printer
import FieldFilter.Proofs.Json.Meaning
import FieldFilter.Proofs.Json.Tokens
import FieldFilter.Text

/-!
# Reading what was written

The reader follows the printer: where a value may start, it takes in the text of the value and then
stands behind it (`write_filled`). The text of a proper value, in either style, therefore means that
value, if it does not nest deeper than the reader goes (`read?_text`). A blank text means nothing
(`read?_of_isBlank`).
-/

namespace FieldFilter

open Json

namespace Json

mutual

/-- The most containers around a scalar of the value, or around the place of one. -/
def nesting : Json → Nat
  | .arr items => nestingAll items + 1
  | .obj members => nestingMembers members + 1
  | _ => 0

def nestingAll : List Json → Nat
  | [] => 0
  | v :: rest => max v.nesting (nestingAll rest)

def nestingMembers : List (String × Json) → Nat
  | [] => 0
  | (_, v) :: rest => max v.nesting (nestingMembers rest)

end

@[simp] theorem nesting_str (s : String) : (str s).nesting = 0 := rfl

theorem nestingAll_le {vs : List Json} {n : Nat} : nestingAll vs ≤ n ↔ ∀ v ∈ vs, v.nesting ≤ n := by
  induction vs with
  | nil => simp [nestingAll]
  | cons v rest ih => rw [nestingAll, Nat.max_le, ih, List.forall_mem_cons]

theorem nestingMembers_le {ms : List (String × Json)} {n : Nat} :
    nestingMembers ms ≤ n ↔ ∀ m ∈ ms, m.2.nesting ≤ n := by
  induction ms with
  | nil => simp [nestingMembers]
  | cons m rest ih => rw [nestingMembers, Nat.max_le, ih, List.forall_mem_cons]

end Json

namespace Raw

/-- The written value is well formed and nests at most so deep. -/
inductive Writable : Nat → Raw → Prop
  | null (n : Nat) : Writable n .null
  | bool (n : Nat) (b : Bool) : Writable n (.bool b)
  | number (n : Nat) {numeral : Decimal.Numeral} : numeral.WellFormed →
      Writable n (.number numeral)
  | string (n : Nat) {glyphs : List Glyph} : (∀ g ∈ glyphs, g.WellFormed) →
      Writable n (.string glyphs)
  | array {n : Nat} {items : List Raw} : (∀ r ∈ items, Writable n r) →
      Writable (n + 1) (.array items)
  | object {n : Nat} {members : List (List Glyph × Raw)} :
      (∀ m ∈ members, ∀ g ∈ m.1, g.WellFormed) → (∀ m ∈ members, Writable n m.2) →
      Writable (n + 1) (.object members)

theorem wellFormed_encode (s : String) : ∀ g ∈ Glyph.encode s, g.WellFormed := by
  intro g hg
  obtain ⟨c, -, rfl⟩ := List.mem_map.1 hg
  exact Glyph.wellFormed_ofChar c

/-- Proper values are written in a form that can be read. -/
theorem writable_raw (v : Json) : ∀ n, v.Proper → v.nesting ≤ n → Writable n v.raw := by
  induction v using Json.induct with
  | null => exact fun n _ _ => .null n
  | bool b => exact fun n _ _ => .bool n b
  | int z => exact fun n _ _ => .number n (Decimal.Numeral.wellFormed_ofInt z)
  | real x => exact fun n h _ => .number n (Decimal.Layout.wellFormed_ofBinary h)
  | str s => exact fun n _ _ => .string n (wellFormed_encode s)
  | arr items ih =>
    intro n h nests
    obtain ⟨n, rfl⟩ := Nat.exists_eq_add_one_of_ne_zero (by rw [nesting] at nests; omega : n ≠ 0)
    have each := nestingAll_le.1 (Nat.le_of_succ_le_succ nests)
    rw [Json.raw, raws_eq, List.reverse_nil, List.nil_append]
    refine .array fun r hr => ?_
    obtain ⟨v, hv, rfl⟩ := List.mem_map.1 hr
    exact ih v hv n (proper_arr.1 h v hv) (each v hv)
  | obj members ih =>
    intro n h nests
    obtain ⟨n, rfl⟩ := Nat.exists_eq_add_one_of_ne_zero (by rw [nesting] at nests; omega : n ≠ 0)
    have each := nestingMembers_le.1 (Nat.le_of_succ_le_succ nests)
    rw [Json.raw, rawMembers_eq, List.reverse_nil, List.nil_append]
    refine .object (fun m hm => ?_) fun m hm => ?_
    · obtain ⟨m, -, rfl⟩ := List.mem_map.1 hm
      exact wellFormed_encode m.1
    · obtain ⟨m, held, rfl⟩ := List.mem_map.1 hm
      exact ih m held n ((proper_obj.1 h).2 m held) (each m held)

end Raw

/-! ## Where the reader stands -/

namespace Json.Cursor

/-- The reader stands at the cursor after the text. -/
def At (limit : Option Nat) (out : String) (cur : Cursor) : Prop :=
  run? limit ⟨[], .value⟩ out.toList = some cur

/-- A value may start, inside the given containers. -/
inductive Ready : List Frame → Cursor → Prop
  | value (around : List Frame) : Ready around ⟨around, .value⟩
  | first (around : List Frame) : Ready (.array [] :: around) ⟨around, .arrayStart⟩

/-- The value was read inside the given containers; a numeral at its end may still be open. -/
inductive Filled : List Frame → Raw → Cursor → Prop
  | fill (around : List Frame) (r : Raw) : Filled around r (fill around r)
  | number (around : List Frame) {o : OpenNumeral} {numeral : Decimal.Numeral} :
      o.close? = some numeral → Filled around (.number numeral) ⟨around, .number o⟩

/-- Blanks change nothing here. -/
def Idle (limit : Option Nat) (cur : Cursor) : Prop :=
  ∀ c, isJsonBlank c = true → cur.step? limit c = some cur

variable {limit : Option Nat} {out : String} {cur cur' : Cursor} {around : List Frame} {r : Raw}

theorem At.push {c : Char} (h : At limit out cur) (step : cur.step? limit c = some cur') :
    At limit (out.push c) cur' := by
  unfold At at h ⊢
  rw [String.toList_push, run?_append, h]
  simp [run?, step]

theorem At.pushAll {cs : List Char} (h : At limit out cur) (run : cur.run? limit cs = some cur') :
    At limit (Raw.push out cs) cur' := by
  induction cs generalizing out cur with
  | nil =>
    obtain rfl := Option.some.inj run
    exact h
  | cons c rest ih =>
    rw [run?] at run
    split at run
    · rename_i next step
      exact ih (h.push step) run
    · cases run

theorem Ready.idle (h : Ready around cur) : Idle limit cur := by
  intro c blank
  cases h <;> simp [step?, blank]

theorem idle_fill (limit : Option Nat) (around : List Frame) (r : Raw) :
    Idle limit (fill around r) := by
  intro c blank
  rcases around with - | ⟨frame, outer⟩
  · simp [fill, step?, between?, blank]
  · cases frame <;> simp [fill, step?, between?, blank]

theorem At.blanks (h : At limit out cur) (idle : Idle limit cur) (n : Nat) :
    At limit (Raw.push out (List.replicate n ' ')) cur := by
  refine h.pushAll ?_
  induction n with
  | zero => rfl
  | succ n ih => simp [List.replicate_succ, run?, idle ' ' rfl, ih]

/-- A line is started where blanks change nothing. -/
theorem At.newLine (style : Style) (depth : Nat) (h : At limit out cur) (idle : Idle limit cur) :
    At limit (Raw.newLine style depth out) cur := by
  cases style with
  | compact => exact h
  | pretty => exact (h.push (idle '\n' rfl)).blanks idle (2 * depth)

/-- What follows a value follows it also when it closes a numeral. -/
theorem Filled.step (limit : Option Nat) (h : Filled around r cur) {c : Char}
    (delimiter : c ∈ [',', ']', '}', '\n']) :
    cur.step? limit c = between? (Cursor.fill around r) c := by
  cases h with
  | fill =>
    rcases around with - | ⟨frame, outer⟩
    · rfl
    · cases frame <;> rfl
  | number closed => simp [step?, OpenNumeral.next?_delimiter _ delimiter, closed]

theorem Filled.newLine (style : Style) (depth : Nat) (h : At limit out cur)
    (filled : Filled around r cur) :
    ∃ cur', Filled around r cur' ∧ At limit (Raw.newLine style depth out) cur' := by
  cases style with
  | compact => exact ⟨cur, filled, h⟩
  | pretty =>
    have idle := idle_fill limit around r
    have line := filled.step limit (c := '\n') (by simp)
    have stays : between? (Cursor.fill around r) '\n' = some (Cursor.fill around r) := rfl
    exact ⟨_, .fill around r, (h.push (line.trans stays)).blanks idle (2 * depth)⟩

theorem Filled.close (h : Filled [] r cur) : cur.close? = some r := by
  cases h with
  | fill => rfl
  | number closed => simp [close?, closed]

/-! ## Tokens -/

/-- Where a value may start, it starts with its first character. -/
theorem Ready.step {c : Char} (h : Ready around cur) (blank : isJsonBlank c = false)
    (bracket : c ≠ ']') : cur.step? limit c = open? limit around c := by
  cases h <;> simp [step?, blank, bracket]

/-- A character that starts a numeral starts nothing else. -/
theorem open?_number (limit : Option Nat) (around : List Frame) {c : Char} {n : OpenNumeral}
    (h : OpenNumeral.start? c = some n) :
    isJsonBlank c = false ∧ c ≠ ']' ∧ open? limit around c = some ⟨around, .number n⟩ := by
  have digits : c = '-' ∨ c.isDigit = true := by
    unfold OpenNumeral.start? at h
    split at h
    · rename_i sign
      exact .inl sign
    · split at h
      · rename_i zero
        exact .inr (zero ▸ rfl)
      · split at h
        · rename_i digit
          exact .inr digit
        · cases h
  have other (d : Char) (sign : d ≠ '-') (digit : d.isDigit = false) : c ≠ d := by
    rintro rfl
    obtain same | same := digits
    · exact sign same
    · rw [digit] at same
      cases same
  refine ⟨?_, other ']' (by decide) rfl, ?_⟩
  · simp [isJsonBlank, other ' ' (by decide) rfl, other '\n' (by decide) rfl,
      other '\r' (by decide) rfl, other '\t' (by decide) rfl]
  · unfold open?
    split
    case h_7 => rw [h]; rfl
    all_goals exact absurd rfl (other _ (by decide) rfl)

theorem At.number {n : Decimal.Numeral} (wf : n.WellFormed) (ready : Ready around cur)
    (h : At limit out cur) : ∃ cur', Filled around (.number n) cur' ∧
      At limit (Raw.push out n.chars) cur' := by
  obtain ⟨c, rest, start, o, chars, started, read, closed⟩ := OpenNumeral.nexts?_numeral wf
  obtain ⟨blank, bracket, opened⟩ := open?_number limit around started
  refine ⟨⟨around, .number o⟩, .number around closed, h.pushAll ?_⟩
  rw [chars, run?, ready.step blank bracket, opened]
  exact run?_numeral limit around read

theorem At.glyphs {glyphs : List Glyph} (wf : ∀ g ∈ glyphs, g.WellFormed) {slot : Slot}
    {done : List Glyph} (h : At limit out ⟨around, .string slot done .closed⟩) :
    At limit (glyphs.foldl (fun out g => Raw.push out g.chars) out)
      ⟨around, .string slot (glyphs.reverse ++ done) .closed⟩ := by
  induction glyphs generalizing out done with
  | nil => exact h
  | cons g rest ih =>
    obtain ⟨first, others⟩ := List.forall_mem_cons.1 wf
    rw [List.foldl_cons, List.reverse_cons, List.append_assoc]
    exact ih others (h.pushAll (Glyph.run?_glyph first limit around slot done))

/-- A string literal, where one may start. -/
theorem At.writeString {glyphs : List Glyph} (wf : ∀ g ∈ glyphs, g.WellFormed) {slot : Slot}
    (start : cur.step? limit '"' = some ⟨around, .string slot [] .closed⟩) (h : At limit out cur) :
    At limit (Raw.writeString glyphs out) (match slot with
      | .value => Cursor.fill around (.string glyphs)
      | .key members => ⟨around, .colon members glyphs⟩) := by
  refine ((h.push start).glyphs wf).push ?_
  cases slot <;> simp [step?, stringStep?]

/-- A key and the colon after it. -/
theorem At.writeKey (style : Style) {glyphs : List Glyph} (wf : ∀ g ∈ glyphs, g.WellFormed)
    {members : List (List Glyph × Raw)}
    (start : cur.step? limit '"' = some ⟨around, .string (.key members) [] .closed⟩)
    (h : At limit out cur) :
    At limit (Raw.writeKey style glyphs out) ⟨.object members glyphs :: around, .value⟩ := by
  have colon : At limit ((Raw.writeString glyphs out).push ':')
      ⟨.object members glyphs :: around, .value⟩ := (h.writeString wf start).push rfl
  cases style with
  | compact => exact colon
  | pretty => exact colon.push rfl

/-! ## Values -/

/-- Wherever the value may start, the reader follows its text. -/
def Follows (limit : Option Nat) (style : Style) (n : Nat) (r : Raw) : Prop :=
  ∀ around cur out depth, Ready around cur → At limit out cur →
    (∀ l, limit = some l → around.length + n ≤ l) →
    ∃ cur', Filled around r cur' ∧ At limit (r.write style depth out) cur'

/-- The elements after the first, up to the end of the last. -/
theorem writeRest_filled {style : Style} (depth : Nat) {n : Nat} {rs : List Raw}
    (each : ∀ r ∈ rs, Follows limit style n r)
    (room : ∀ l, limit = some l → around.length + 1 + n ≤ l) {done : List Raw}
    (filled : Filled (.array done :: around) r cur) (h : At limit out cur) :
    ∃ done' r' cur', (r' :: done').reverse = (r :: done).reverse ++ rs ∧
      Filled (.array done' :: around) r' cur' ∧
      At limit (Raw.writeRest style depth rs out) cur' := by
  induction rs generalizing done r cur out with
  | nil => exact ⟨done, r, cur, by simp, filled, h⟩
  | cons s rest ih =>
    obtain ⟨first, others⟩ := List.forall_mem_cons.1 each
    have ready := Ready.value (.array (r :: done) :: around)
    have comma := h.push (filled.step limit (c := ',') (by simp))
    have line := comma.newLine style depth ready.idle
    obtain ⟨cur', filled', h'⟩ := first _ _ _ depth ready line room
    obtain ⟨done', r', cur'', all, filled'', h''⟩ := ih others filled' h'
    refine ⟨done', r', cur'', ?_, filled'', h''⟩
    rw [all, List.reverse_cons, List.append_assoc]
    rfl

/-- The members after the first, up to the end of the last. -/
theorem writeMembers_filled {style : Style} (depth : Nat) {n : Nat}
    {ms : List (List Glyph × Raw)}
    (keys : ∀ m ∈ ms, ∀ g ∈ m.1, g.WellFormed) (each : ∀ m ∈ ms, Follows limit style n m.2)
    (room : ∀ l, limit = some l → around.length + 1 + n ≤ l) {done : List (List Glyph × Raw)}
    {key : List Glyph} (filled : Filled (.object done key :: around) r cur)
    (h : At limit out cur) :
    ∃ done' key' r' cur', ((key', r') :: done').reverse = ((key, r) :: done).reverse ++ ms ∧
      Filled (.object done' key' :: around) r' cur' ∧
      At limit (Raw.writeMembers style depth ms out) cur' := by
  induction ms generalizing done key r cur out with
  | nil => exact ⟨done, key, r, cur, by simp, filled, h⟩
  | cons m rest ih =>
    obtain ⟨own, keys⟩ := List.forall_mem_cons.1 keys
    obtain ⟨first, others⟩ := List.forall_mem_cons.1 each
    have idle : Idle limit ⟨around, .key ((key, r) :: done)⟩ := fun c blank => by
      simp [step?, blank]
    have comma := h.push (filled.step limit (c := ',') (by simp))
    have named := (comma.newLine style depth idle).writeKey style own rfl
    obtain ⟨cur', filled', h'⟩ := first _ _ _ depth (.value _) named room
    obtain ⟨done', key', r', cur'', all, filled'', h''⟩ := ih keys others filled' h'
    refine ⟨done', key', r', cur'', ?_, filled'', h''⟩
    rw [all, List.reverse_cons, List.append_assoc]
    rfl

theorem admits_of_room {n : Nat} (room : ∀ l, limit = some l → around.length + (n + 1) ≤ l) :
    admits limit around = true := by
  unfold admits
  cases limit with
  | none => rfl
  | some l => simpa using Nat.lt_of_lt_of_le (Nat.lt_add_of_pos_right n.succ_pos) (room l rfl)

theorem follows_array {style : Style} {n : Nat} {items : List Raw}
    (each : ∀ r ∈ items, Follows limit style n r) :
    Follows limit style (n + 1) (.array items) := by
  intro around cur out depth ready h room
  have opened : cur.step? limit '[' = some ⟨around, .arrayStart⟩ := by
    rw [ready.step rfl (by decide)]
    simp [open?, admits_of_room room]
  have start := h.push opened
  cases items with
  | nil => exact ⟨_, .fill around (.array []), start.push rfl⟩
  | cons r rest =>
    obtain ⟨first, others⟩ := List.forall_mem_cons.1 each
    have ready := Ready.first around
    have room' : ∀ l, limit = some l → around.length + 1 + n ≤ l := fun l hl => by
      have := room l hl
      omega
    have line := start.newLine style (depth + 1) ready.idle
    obtain ⟨cur₁, filled₁, h₁⟩ := first _ _ _ (depth + 1) ready line room'
    obtain ⟨done, s, cur₂, all, filled₂, h₂⟩ :=
      writeRest_filled (depth + 1) others room' filled₁ h₁
    obtain ⟨cur₃, filled₃, h₃⟩ := filled₂.newLine style depth h₂
    have whole : (s :: done).reverse = r :: rest := all
    refine ⟨_, .fill around (.array (r :: rest)), h₃.push ?_⟩
    rw [filled₃.step limit (by simp), ← whole]
    rfl

theorem follows_object {style : Style} {n : Nat} {members : List (List Glyph × Raw)}
    (keys : ∀ m ∈ members, ∀ g ∈ m.1, g.WellFormed)
    (each : ∀ m ∈ members, Follows limit style n m.2) :
    Follows limit style (n + 1) (.object members) := by
  intro around cur out depth ready h room
  have opened : cur.step? limit '{' = some ⟨around, .objectStart⟩ := by
    rw [ready.step rfl (by decide)]
    simp [open?, admits_of_room room]
  have start := h.push opened
  cases members with
  | nil => exact ⟨_, .fill around (.object []), start.push rfl⟩
  | cons m rest =>
    obtain ⟨own, keys⟩ := List.forall_mem_cons.1 keys
    obtain ⟨first, others⟩ := List.forall_mem_cons.1 each
    have idle : Idle limit ⟨around, .objectStart⟩ := fun c blank => by simp [step?, blank]
    have room' : ∀ l, limit = some l → around.length + 1 + n ≤ l := fun l hl => by
      have := room l hl
      omega
    have named := (start.newLine style (depth + 1) idle).writeKey style own rfl
    obtain ⟨cur₁, filled₁, h₁⟩ := first _ _ _ (depth + 1) (.value _) named room'
    obtain ⟨done, key, s, cur₂, all, filled₂, h₂⟩ :=
      writeMembers_filled (depth + 1) keys others room' filled₁ h₁
    obtain ⟨cur₃, filled₃, h₃⟩ := filled₂.newLine style depth h₂
    have whole : ((key, s) :: done).reverse = m :: rest := all
    refine ⟨_, .fill around (.object (m :: rest)), h₃.push ?_⟩
    rw [filled₃.step limit (by simp), ← whole]
    rfl

/-- The reader follows the printer over every written value that does not nest too deep. -/
theorem write_filled (style : Style) {n : Nat} (w : Raw.Writable n r) :
    Follows limit style n r := by
  induction w with
  | null n =>
    intro around cur out depth ready h _
    refine ⟨_, .fill around .null, h.pushAll ?_⟩
    rw [run?, ready.step rfl (by decide)]
    rfl
  | bool n b =>
    intro around cur out depth ready h _
    cases b with
    | false =>
      refine ⟨_, .fill around (.bool false), h.pushAll ?_⟩
      rw [run?, ready.step rfl (by decide)]
      rfl
    | true =>
      refine ⟨_, .fill around (.bool true), h.pushAll ?_⟩
      rw [run?, ready.step rfl (by decide)]
      rfl
  | number n wf => exact fun around cur out depth ready h _ => h.number wf ready
  | string n wf =>
    intro around cur out depth ready h _
    exact ⟨_, .fill around (.string _), h.writeString wf (ready.step rfl (by decide))⟩
  | array _ ih => exact follows_array ih
  | object keys _ ih => exact follows_object keys ih

end Json.Cursor

/-- A written value is read from its text. -/
theorem Raw.read?_text {limit : Option Nat} {n : Nat} {r : Raw} (w : Writable n r)
    (room : ∀ l, limit = some l → n ≤ l) (style : Style) :
    Raw.read? limit (r.text style) = some r := by
  have start : Json.Cursor.At limit "" ⟨[], .value⟩ := rfl
  obtain ⟨cur, filled, h⟩ := Json.Cursor.write_filled style w [] _ "" 0
    (.value []) start (by simpa using room)
  rw [Raw.read?, Raw.text, h]
  exact filled.close

/-- The text of a value means that value. -/
theorem Json.read?_text {v : Json} (h : v.Proper) (nests : v.nesting ≤ Json.nestingLimit)
    (style : Style) : Json.read? (v.raw.text style) = some v := by
  have w := Raw.writable_raw v Json.nestingLimit h nests
  rw [Json.read?, Raw.read?_text w (fun l hl => (Option.some.inj hl).le) style]
  exact Raw.value?_raw v h

/-! ## Strings without escapes -/

theorem Raw.push_eq (out : String) (cs : List Char) :
    Raw.push out cs = out ++ String.ofList cs := by
  unfold Raw.push
  induction cs generalizing out with
  | nil => simp
  | cons c rest ih =>
    rw [List.foldl_cons, ih]
    apply String.toList_inj.1
    simp

/-- A string that needs no escapes is written as it is. -/
theorem Raw.writeString_plain {s : String} (plain : ∀ c ∈ s.toList, Glyph.ofChar c = .plain c)
    (out : String) : Raw.writeString (Glyph.encode s) out = out ++ "\"" ++ s ++ "\"" := by
  have glyphs : Glyph.encode s = s.toList.map .plain := List.map_congr_left plain
  have each (cs : List Char) (out : String) :
      (cs.map Glyph.plain).foldl (fun out g => Raw.push out g.chars) out =
        out ++ String.ofList cs := by
    rw [List.foldl_map]
    exact Raw.push_eq out cs
  unfold writeString
  rw [glyphs, each]
  apply String.toList_inj.1
  simp

/-! ## Blank texts -/

/-- No value starts with a blank. -/
theorem Json.Cursor.open?_blank (limit : Option Nat) (around : List Frame) {c : Char}
    (blank : Text.isBlankChar c = true) : open? limit around c = none := by
  have other (d : Char) (filled : Text.isBlankChar d = false) : c ≠ d := by
    rintro rfl
    rw [filled] at blank
    cases blank
  have digit : c.isDigit = false := by
    by_contra digit
    rw [Bool.not_eq_false, Char.isDigit_iff_toNat] at digit
    simp only [Text.isBlankChar, Text.blankRanges, List.any_cons, List.any_nil, Bool.or_false,
      Bool.or_eq_true, Bool.and_eq_true, decide_eq_true_eq] at blank
    have zero : '0'.toNat = 48 := rfl
    have nine : '9'.toNat = 57 := rfl
    omega
  have start : OpenNumeral.start? c = none := by
    simp [OpenNumeral.start?, digit, other '-' (by decide), other '0' (by decide)]
  unfold open?
  split
  case h_7 => rw [start]; rfl
  all_goals exact absurd rfl (other _ (by decide))

/-- Before a value the reader passes over blanks, or stops at one that is none of JSON's. -/
theorem Json.Cursor.run?_blanks (limit : Option Nat) {cs : List Char}
    (blank : ∀ c ∈ cs, Text.isBlankChar c = true) :
    run? limit ⟨[], .value⟩ cs = some ⟨[], .value⟩ ∨ run? limit ⟨[], .value⟩ cs = none := by
  induction cs with
  | nil => exact .inl rfl
  | cons c rest ih =>
    obtain ⟨first, others⟩ := List.forall_mem_cons.1 blank
    simp only [run?, step?]
    split
    · rename_i next passed
      split at passed
      · obtain rfl := Option.some.inj passed
        exact ih others
      · rw [open?_blank limit [] first] at passed
        cases passed
    · exact .inr rfl

/-- A blank text means nothing. -/
theorem Json.read?_of_isBlank {text : String} (h : Text.isBlank text = true) :
    Json.read? text = none := by
  have blank : ∀ c ∈ text.toList, Text.isBlankChar c = true := by simpa [Text.isBlank] using h
  obtain stays | stops := Json.Cursor.run?_blanks (some Json.nestingLimit) blank
  · rw [Json.read?, Raw.read?, stays]
    rfl
  · rw [Json.read?, Raw.read?, stops]
    rfl

end FieldFilter

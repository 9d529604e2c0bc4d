import TypeFerry.Lib.Numeral

/-! # JSON values and their text

`stringify` writes a JSON value the way ECMAScript's `JSON.stringify` does
without indentation, and `parse` is `JSON.parse`: it accepts the JSON grammar
with white space, every escape, and repeated member names, of which the last
one wins. Text and strings are UTF-16 code units, so lone surrogates are
covered. The main result is `parse_stringify`. -/
namespace TypeFerry.Lib.JsonText
open TypeFerry.Lib.Numeral

/-- A JSON value; members keep their order. -/
inductive Json where
  | null
  | bool (b : Bool)
  | num (d : Decimal)
  | str (s : Text)
  | arr (xs : List Json)
  | obj (ms : List (Text × Json))

/-! ## Strings -/

def isHigh (u : UInt16) : Bool := 0xD800 ≤ u.toNat && u.toNat ≤ 0xDBFF
def isLow (u : UInt16) : Bool := 0xDC00 ≤ u.toNat && u.toNat ≤ 0xDFFF

def hexUnit (n : Nat) : UInt16 := UInt16.ofNat (if n < 10 then 48 + n else 87 + n)

/-- The escape `\uXXXX` of a code unit. -/
def hexEscape (u : UInt16) : Text :=
  [92, 117, hexUnit (u.toNat / 4096), hexUnit (u.toNat / 256 % 16), hexUnit (u.toNat / 16 % 16),
    hexUnit (u.toNat % 16)]

/-- One code unit that is not a surrogate, as `JSON.stringify` writes it. -/
def escapeUnit (u : UInt16) : Text :=
  if u = 8 then js "\\b"
  else if u = 9 then js "\\t"
  else if u = 10 then js "\\n"
  else if u = 12 then [92, 102]
  else if u = 13 then js "\\r"
  else if u = 34 then [92, 34]
  else if u = 92 then [92, 92]
  else if u.toNat < 32 then hexEscape u
  else [u]

/-- The body of a quoted string. A surrogate without its partner is escaped. -/
def quoteBody : Text → Text
  | [] => []
  | [u] => if isHigh u || isLow u then hexEscape u else escapeUnit u
  | u :: v :: rest =>
    if isHigh u && isLow v then u :: v :: quoteBody rest
    else (if isHigh u || isLow u then hexEscape u else escapeUnit u) ++ quoteBody (v :: rest)

def quote (s : Text) : Text := js "\"" ++ quoteBody s ++ js "\""

def hexVal (u : UInt16) : Option Nat :=
  let n := u.toNat
  if 48 ≤ n ∧ n ≤ 57 then some (n - 48)
  else if 97 ≤ n ∧ n ≤ 102 then some (n - 87)
  else if 65 ≤ n ∧ n ≤ 70 then some (n - 55)
  else none

/-- The code unit of a single-letter escape. -/
def unescape (e : UInt16) : Option UInt16 :=
  if e = 34 ∨ e = 92 ∨ e = 47 then some e
  else if e = 98 then some 8
  else if e = 102 then some 12
  else if e = 110 then some 10
  else if e = 114 then some 13
  else if e = 116 then some 9
  else none

/-- A string after its opening quote, up to the closing one. -/
def readString : Text → Option (Text × Text)
  | [] => none
  | u :: r =>
    if u = 34 then some ([], r)
    else if u = 92 then
      match r with
      | [] => none
      | e :: r =>
        if e = 117 then
          match r with
          | a :: b :: c :: d :: r => do
            let n := 4096 * (← hexVal a) + 256 * (← hexVal b) + 16 * (← hexVal c) + (← hexVal d)
            let p ← readString r
            some (UInt16.ofNat n :: p.1, p.2)
          | _ => none
        else do
          let v ← unescape e
          let p ← readString r
          some (v :: p.1, p.2)
    else if u.toNat < 32 then none
    else do
      let p ← readString r
      some (u :: p.1, p.2)

/-! ## Writing values -/

mutual

/-- `JSON.stringify` without indentation. -/
def stringify : Json → Text
  | .null => js "null"
  | .bool true => js "true"
  | .bool false => js "false"
  | .num d => d.toText
  | .str s => quote s
  | .arr [] => js "[]"
  | .arr (x :: xs) => js "[" ++ (stringify x ++ stringifyElems xs)
  | .obj [] => js "\x7b\x7d"
  | .obj ((k, v) :: ms) => js "\x7b" ++ (quote k ++ (js ":" ++ (stringify v ++ stringifyMembers ms)))

/-- The elements after the first one, and the closing bracket. -/
def stringifyElems : List Json → Text
  | [] => js "]"
  | x :: xs => js "," ++ (stringify x ++ stringifyElems xs)

/-- The members after the first one, and the closing brace. -/
def stringifyMembers : List (Text × Json) → Text
  | [] => js "\x7d"
  | (k, v) :: ms => js "," ++ (quote k ++ (js ":" ++ (stringify v ++ stringifyMembers ms)))

end

/-! ## Reading values -/

def skipWs : Text → Text
  | [] => []
  | u :: r => if u = 32 ∨ u = 9 ∨ u = 10 ∨ u = 13 then skipWs r else u :: r

/-- The text after a literal. -/
def after : Text → Text → Option Text
  | [], s => some s
  | _ :: _, [] => none
  | p :: ps, u :: s => if p = u then after ps s else none

/-- Define a member: an existing name keeps its place. -/
def setMember {α : Type} (k : Text) (v : α) : List (Text × α) → List (Text × α)
  | [] => [(k, v)]
  | (k', v') :: ms => if k' = k then (k', v) :: ms else (k', v') :: setMember k v ms

/-- A member's name and the colon after it. -/
def readName (s : Text) : Option (Text × Text) :=
  match skipWs s with
  | u :: r =>
    if u = 34 then do
      let k ← readString r
      match skipWs k.2 with
      | c :: r => if c = 58 then some (k.1, r) else none
      | [] => none
    else none
  | [] => none

mutual

/-- A value at the head of a text. The fuel bounds the values and the
separators read below it. -/
def readValue : Nat → Text → Option (Json × Text)
  | 0, _ => none
  | f + 1, s =>
    match skipWs s with
    | [] => none
    | u :: r =>
      if u = 123 then
        match skipWs r with
        | v :: r' =>
          if v = 125 then some (.obj [], r')
          else do
            let k ← readName r
            let x ← readValue f k.2
            readMembers f [(k.1, x.1)] x.2
        | [] => none
      else if u = 91 then
        match skipWs r with
        | v :: r' =>
          if v = 93 then some (.arr [], r')
          else do
            let x ← readValue f r
            readElems f [x.1] x.2
        | [] => none
      else if u = 34 then (readString r).map fun p => (.str p.1, p.2)
      else if u = 110 then (after (js "null") (u :: r)).map fun r => (.null, r)
      else if u = 116 then (after (js "true") (u :: r)).map fun r => (.bool true, r)
      else if u = 102 then (after (js "false") (u :: r)).map fun r => (.bool false, r)
      else (readNumber (u :: r)).map fun p => (.num p.1, p.2)

/-- The elements after those of `acc`. -/
def readElems : Nat → List Json → Text → Option (Json × Text)
  | 0, _, _ => none
  | f + 1, acc, s =>
    match skipWs s with
    | [] => none
    | u :: r =>
      if u = 93 then some (.arr acc, r)
      else if u = 44 then do
        let x ← readValue f r
        readElems f (acc ++ [x.1]) x.2
      else none

/-- The members after those of `acc`. -/
def readMembers : Nat → List (Text × Json) → Text → Option (Json × Text)
  | 0, _, _ => none
  | f + 1, acc, s =>
    match skipWs s with
    | [] => none
    | u :: r =>
      if u = 125 then some (.obj acc, r)
      else if u = 44 then do
        let k ← readName r
        let x ← readValue f k.2
        readMembers f (setMember k.1 x.1 acc) x.2
      else none

end

/-- `JSON.parse`: one value, and white space around it. -/
def parse (s : Text) : Option Json :=
  match readValue (s.length + 1) s with
  | some (j, r) => if skipWs r = [] then some j else none
  | none => none

/-! ## Well-formed values -/

mutual

/-- Negative zeros read as zeros, which is all that text loses. -/
def dropNegZero : Json → Json
  | .num d => .num d.dropNegZero
  | .arr xs => .arr (dropNegZeroElems xs)
  | .obj ms => .obj (dropNegZeroMembers ms)
  | j => j

def dropNegZeroElems : List Json → List Json
  | [] => []
  | x :: xs => dropNegZero x :: dropNegZeroElems xs

def dropNegZeroMembers : List (Text × Json) → List (Text × Json)
  | [] => []
  | (k, v) :: ms => (k, dropNegZero v) :: dropNegZeroMembers ms

end

mutual

/-- No object has two members of one name. -/
def WF : Json → Prop
  | .arr xs => WFElems xs
  | .obj ms => (ms.map Prod.fst).Nodup ∧ WFMembers ms
  | _ => True

def WFElems : List Json → Prop
  | [] => True
  | x :: xs => WF x ∧ WFElems xs

def WFMembers : List (Text × Json) → Prop
  | [] => True
  | (_, v) :: ms => WF v ∧ WFMembers ms

end

mutual

/-- The fuel a value needs to be read. -/
def size : Json → Nat
  | .null | .bool _ | .num _ | .str _ | .arr [] | .obj [] => 1
  | .arr (x :: xs) => 1 + size x + sizeElems xs
  | .obj ((_, v) :: ms) => 1 + size v + sizeMembers ms

def sizeElems : List Json → Nat
  | [] => 1
  | x :: xs => 1 + size x + sizeElems xs

def sizeMembers : List (Text × Json) → Nat
  | [] => 1
  | (_, v) :: ms => 1 + size v + sizeMembers ms

end

theorem size_pos (j : Json) : 0 < size j := by
  cases j with
  | arr xs => cases xs <;> simp only [size] <;> omega
  | obj ms => rcases ms with _ | ⟨⟨k, v⟩, ms⟩ <;> simp only [size] <;> omega
  | _ => simp only [size, Nat.zero_lt_one]

/-! ## Strings read back -/

theorem hexVal_hexUnit {n : Nat} (h : n < 16) : hexVal (hexUnit n) = some n := by
  have : ∀ n, n < 16 → hexVal (hexUnit n) = some n := by decide
  exact this n h

theorem readString_hexEscape (u : UInt16) (r : Text) :
    readString (hexEscape u ++ r) = (readString r).map fun p => (u :: p.1, p.2) := by
  have hu : u.toNat < 65536 := u.toNat_lt
  have hn : UInt16.ofNat (4096 * (u.toNat / 4096) + 256 * (u.toNat / 256 % 16) +
      16 * (u.toNat / 16 % 16) + u.toNat % 16) = u := by
    rw [show 4096 * (u.toNat / 4096) + 256 * (u.toNat / 256 % 16) + 16 * (u.toNat / 16 % 16) +
      u.toNat % 16 = u.toNat by omega]
    simp
  rw [hexEscape, List.cons_append, List.cons_append, readString.eq_def]
  simp only [List.cons_append, List.nil_append,
    hexVal_hexUnit (show u.toNat / 4096 < 16 by omega),
    hexVal_hexUnit (show u.toNat / 256 % 16 < 16 by omega),
    hexVal_hexUnit (show u.toNat / 16 % 16 < 16 by omega),
    hexVal_hexUnit (show u.toNat % 16 < 16 by omega), Option.bind_some, bind, hn]
  rw [if_neg (by decide), if_pos trivial, if_pos trivial]
  cases readString r <;> rfl

theorem readString_plain {u : UInt16} (r : Text) (h1 : u ≠ 34) (h2 : u ≠ 92)
    (h3 : ¬ u.toNat < 32) :
    readString (u :: r) = (readString r).map fun p => (u :: p.1, p.2) := by
  rw [readString.eq_def]
  simp only [h1, h2, h3, if_false, bind]
  cases readString r <;> rfl

theorem readString_letter {e v : UInt16} (r : Text) (he : e ≠ 117) (hv : unescape e = some v) :
    readString (92 :: e :: r) = (readString r).map fun p => (v :: p.1, p.2) := by
  rw [readString.eq_def]
  simp only [he, hv, if_false, bind, Option.bind_some]
  rw [if_neg (by decide), if_pos trivial]
  cases readString r <;> rfl

theorem readString_escapeUnit (u : UInt16) (r : Text) :
    readString (escapeUnit u ++ r) = (readString r).map fun p => (u :: p.1, p.2) := by
  unfold escapeUnit
  split_ifs with h1 h2 h3 h4 h5 h6 h7 h8
  · subst h1; exact readString_letter r (by decide) (by decide)
  · subst h2; exact readString_letter r (by decide) (by decide)
  · subst h3; exact readString_letter r (by decide) (by decide)
  · subst h4; exact readString_letter r (by decide) (by decide)
  · subst h5; exact readString_letter r (by decide) (by decide)
  · subst h6; exact readString_letter r (by decide) (by decide)
  · subst h7; exact readString_letter r (by decide) (by decide)
  · exact readString_hexEscape u r
  · exact readString_plain r h6 h7 h8

theorem surrogate_plain {u : UInt16} (h : isHigh u = true ∨ isLow u = true) :
    u ≠ 34 ∧ u ≠ 92 ∧ ¬ u.toNat < 32 := by
  have hn : 0xD800 ≤ u.toNat := by
    rcases h with h | h <;> simp [isHigh, isLow] at h <;> omega
  refine ⟨?_, ?_, by omega⟩ <;> rintro rfl <;> exact absurd hn (by decide)

theorem readString_unit (u : UInt16) (r : Text) :
    readString ((if isHigh u || isLow u then hexEscape u else escapeUnit u) ++ r) =
      (readString r).map fun p => (u :: p.1, p.2) := by
  split
  · exact readString_hexEscape u r
  · exact readString_escapeUnit u r

theorem readString_close (r : Text) : readString (34 :: r) = some ([], r) := by
  rw [readString.eq_def]; rfl

theorem readString_quoteBody (s r : Text) : readString (quoteBody s ++ 34 :: r) = some (s, r) := by
  induction s using quoteBody.induct with
  | case1 => exact readString_close r
  | case2 u | case3 u => rw [quoteBody, readString_unit, readString_close]; rfl
  | case4 u v rest h ih =>
    have hp := h
    simp only [Bool.and_eq_true] at hp
    obtain ⟨hu1, hu2, hu3⟩ := surrogate_plain (Or.inl hp.1)
    obtain ⟨hv1, hv2, hv3⟩ := surrogate_plain (Or.inr hp.2)
    rw [quoteBody, if_pos h, List.cons_append, List.cons_append,
      readString_plain _ hu1 hu2 hu3, readString_plain _ hv1 hv2 hv3, ih]
    rfl
  | case5 u v rest h ih =>
    rw [quoteBody, if_neg h, List.append_assoc, readString_unit, ih]
    rfl

theorem quote_append (s r : Text) : quote s ++ r = 34 :: (quoteBody s ++ 34 :: r) := by
  have hj : js "\"" = [34] := by decide
  simp [quote, hj]

/-! ## Values read back -/

/-- A code unit that starts a value and is not white space. -/
def Starts (u : UInt16) : Prop := ¬ (u = 32 ∨ u = 9 ∨ u = 10 ∨ u = 13) ∧ u ≠ 93 ∧ u ≠ 125

theorem skipWs_of_starts {u : UInt16} (h : Starts u) (r : Text) : skipWs (u :: r) = u :: r := by
  rw [skipWs, if_neg h.1]

theorem starts_unit {d : Nat} (h : d < 10) : Starts (unit d) :=
  ⟨by simp only [not_or]; exact ⟨unit_ne h (by decide), unit_ne h (by decide), unit_ne h (by decide),
    unit_ne h (by decide)⟩, unit_ne h (by decide), unit_ne h (by decide)⟩

/-- How the text of a number starts. -/
theorem toText_head (d : Decimal) : ∃ u r, d.toText = u :: r ∧ Starts u ∧
    u ≠ 123 ∧ u ≠ 91 ∧ u ≠ 34 ∧ u ≠ 110 ∧ u ≠ 116 ∧ u ≠ 102 := by
  have key : ∀ (neg : Bool) (int frac : List Nat) (exp : Option (Bool × Nat)), int ≠ [] →
      (∀ x ∈ int, x < 10) → ∃ u r, numeral neg int frac exp = u :: r ∧ Starts u ∧
        u ≠ 123 ∧ u ≠ 91 ∧ u ≠ 34 ∧ u ≠ 110 ∧ u ≠ 116 ∧ u ≠ 102 := by
    intro neg int frac exp hne hlt
    cases neg with
    | true => exact ⟨45, int.map unit ++ (fracText frac ++ expText exp), rfl, by unfold Starts; decide⟩
    | false =>
      obtain ⟨x, xs, rfl⟩ := List.exists_cons_of_ne_nil hne
      have hx := hlt x (by simp)
      exact ⟨unit x, xs.map unit ++ (fracText frac ++ expText exp), rfl, starts_unit hx,
        unit_ne hx (by decide), unit_ne hx (by decide), unit_ne hx (by decide),
        unit_ne hx (by decide), unit_ne hx (by decide), unit_ne hx (by decide)⟩
  have hlt : ∀ x ∈ digitsOf d.sig, x < 10 := fun _ h => digitsOf_lt h
  have hne := digitsOf_ne_nil d.sig
  have hlen : 0 < (digitsOf d.sig).length := List.length_pos_iff.mpr hne
  have htake : ∀ n, 0 < n → (digitsOf d.sig).take n ≠ [] := by
    intro n hn he
    have := congrArg List.length he
    simp only [List.length_take, List.length_nil] at this
    omega
  unfold Decimal.toText
  dsimp only
  split_ifs with h0 h1 h2 h3
  · exact ⟨48, [], rfl, by unfold Starts; decide⟩
  · refine key _ _ _ _ (by simp [hne]) ?_
    intro x hx
    rcases List.mem_append.mp hx with hx | hx
    · exact hlt x hx
    · rw [List.eq_of_mem_replicate hx]; decide
  · exact key _ _ _ _ (htake _ (by omega)) fun x hx => hlt x (List.mem_of_mem_take hx)
  · exact key _ _ _ _ (by simp) (by simp)
  · exact key _ _ _ _ (htake 1 (by decide)) fun x hx => hlt x (List.mem_of_mem_take hx)

/-- Written values start with a code unit that starts a value. -/
theorem stringify_head (j : Json) : ∃ u r, stringify j = u :: r ∧ Starts u := by
  match j with
  | .null => exact ⟨110, js "ull", by rw [stringify]; decide, by unfold Starts; decide⟩
  | .bool true => exact ⟨116, js "rue", by rw [stringify]; decide, by unfold Starts; decide⟩
  | .bool false => exact ⟨102, js "alse", by rw [stringify]; decide, by unfold Starts; decide⟩
  | .num d => obtain ⟨u, r, h, hs, _⟩ := toText_head d; exact ⟨u, r, by rw [stringify, h], hs⟩
  | .str s =>
    exact ⟨34, quoteBody s ++ [34], by
      rw [stringify]; simpa using quote_append s [], by unfold Starts; decide⟩
  | .arr [] => exact ⟨91, js "]", by rw [stringify]; decide, by unfold Starts; decide⟩
  | .arr (x :: xs) => exact ⟨91, _, by rw [stringify]; rfl, by unfold Starts; decide⟩
  | .obj [] => exact ⟨123, js "\x7d", by rw [stringify]; decide, by unfold Starts; decide⟩
  | .obj ((k, v) :: ms) => exact ⟨123, _, by rw [stringify]; rfl, by unfold Starts; decide⟩

theorem readName_quote (k r : Text) : readName (quote k ++ (js ":" ++ r)) = some (k, r) := by
  have hj : js ":" = [58] := by decide
  rw [quote_append, readName, skipWs_of_starts (by unfold Starts; decide)]
  simp only [if_true, readString_quoteBody, bind, Option.bind_some, hj, List.cons_append,
    List.nil_append]
  rw [skipWs_of_starts (by unfold Starts; decide)]
  rfl

theorem setMember_fresh {α : Type} {k : Text} {v : α} {ms : List (Text × α)}
    (h : k ∉ ms.map Prod.fst) : setMember k v ms = ms ++ [(k, v)] := by
  induction ms with
  | nil => rfl
  | cons m ms ih =>
    simp only [List.map_cons, List.mem_cons, not_or] at h
    rw [setMember, if_neg (Ne.symm h.1), ih h.2, List.cons_append]

theorem numFollow_elems (xs : List Json) (r : Text) : NumFollow (stringifyElems xs ++ r) := by
  match xs with
  | [] => intro u hu; rw [stringifyElems] at hu; cases hu; decide
  | x :: xs => intro u hu; rw [stringifyElems] at hu; cases hu; decide

theorem numFollow_members (ms : List (Text × Json)) (r : Text) :
    NumFollow (stringifyMembers ms ++ r) := by
  match ms with
  | [] => intro u hu; rw [stringifyMembers] at hu; cases hu; decide
  | (k, v) :: ms => intro u hu; rw [stringifyMembers] at hu; cases hu; decide

/-- A number read as a value. -/
theorem readValue_num (d : Decimal) (f : Nat) {r : Text} (hr : NumFollow r) :
    readValue (f + 1) (d.toText ++ r) = some (.num d.dropNegZero, r) := by
  obtain ⟨u, t, ht, hs, h1, h2, h3, h4, h5, h6⟩ := toText_head d
  have hn := readNumber_toText d hr
  rw [ht, List.cons_append] at hn ⊢
  rw [readValue, skipWs_of_starts hs]
  simp only [h1, h2, h3, h4, h5, h6, if_false, hn, Option.map_some]

mutual

theorem readValue_stringify : ∀ (j : Json) (f : Nat) (r : Text), WF j → size j ≤ f →
    NumFollow r → readValue f (stringify j ++ r) = some (dropNegZero j, r)
  | j, 0, r, _, hf, _ => absurd hf (by have := size_pos j; omega)
  | .null, f + 1, r, _, _, _ => by rw [stringify, readValue]; rfl
  | .bool true, f + 1, r, _, _, _ => by rw [stringify, readValue]; rfl
  | .bool false, f + 1, r, _, _, _ => by rw [stringify, readValue]; rfl
  | .num d, f + 1, r, _, _, hr => by rw [stringify, readValue_num d f hr]; rfl
  | .str s, f + 1, r, _, _, _ => by
    rw [stringify, quote_append, readValue, skipWs_of_starts (by unfold Starts; decide)]
    simp only [readString_quoteBody, Option.map_some]
    rfl
  | .arr [], f + 1, r, _, _, _ => by rw [stringify, readValue]; rfl
  | .arr (x :: xs), f + 1, r, hw, hf, hr => by
    simp only [size] at hf
    rw [WF, WFElems] at hw
    have hx := readValue_stringify x f (stringifyElems xs ++ r) hw.1 (by omega)
      (numFollow_elems xs r)
    have hxs := readElems_stringify xs f [dropNegZero x] r hw.2 (by omega)
    obtain ⟨u, t, ht, hs⟩ := stringify_head x
    have hj : js "[" = [91] := by decide
    rw [stringify, hj, List.cons_append, List.nil_append, List.cons_append, List.append_assoc,
      readValue, skipWs_of_starts (by unfold Starts; decide)]
    rw [ht, List.cons_append] at hx ⊢
    simp only [skipWs_of_starts hs, hs.2.1, if_false, hx, bind, Option.bind_some, hxs]
    rw [if_neg (by decide), if_pos trivial, dropNegZero, dropNegZeroElems]
    rfl
  | .obj [], f + 1, r, _, _, _ => by rw [stringify, readValue]; rfl
  | .obj ((k, v) :: ms), f + 1, r, hw, hf, hr => by
    simp only [size] at hf
    rw [WF, WFMembers] at hw
    have hv := readValue_stringify v f (stringifyMembers ms ++ r) hw.2.1 (by omega)
      (numFollow_members ms r)
    have hms := readMembers_stringify ms f [(k, dropNegZero v)] r hw.2.2 (by omega)
      (by simpa using hw.1)
    have hname := readName_quote k (stringify v ++ (stringifyMembers ms ++ r))
    have hj : js "\x7b" = [123] := by decide
    rw [stringify, hj, List.cons_append, List.nil_append, List.cons_append,
      readValue, skipWs_of_starts (by unfold Starts; decide)]
    simp only [List.append_assoc]
    rw [quote_append] at hname ⊢
    rw [skipWs_of_starts (by unfold Starts; decide)]
    simp only [if_true, hname, hv, hms, bind, Option.bind_some]
    rw [if_neg (by decide), dropNegZero, dropNegZeroMembers]
    rfl

theorem readElems_stringify : ∀ (xs : List Json) (f : Nat) (acc : List Json) (r : Text),
    WFElems xs → sizeElems xs ≤ f →
    readElems f acc (stringifyElems xs ++ r) = some (.arr (acc ++ dropNegZeroElems xs), r)
  | xs, 0, acc, r, _, hf => by cases xs <;> simp [sizeElems] at hf
  | [], f + 1, acc, r, _, _ => by
    rw [stringifyElems, readElems, dropNegZeroElems, List.append_nil]; rfl
  | x :: xs, f + 1, acc, r, hw, hf => by
    simp only [sizeElems] at hf
    rw [WFElems] at hw
    have hx := readValue_stringify x f (stringifyElems xs ++ r) hw.1 (by omega)
      (numFollow_elems xs r)
    have hxs := readElems_stringify xs f (acc ++ [dropNegZero x]) r hw.2 (by omega)
    have hj : js "," = [44] := by decide
    rw [stringifyElems, hj, List.cons_append, List.nil_append, List.cons_append, List.append_assoc,
      readElems, skipWs_of_starts (by unfold Starts; decide)]
    simp only [hx, bind, Option.bind_some, hxs]
    rw [if_neg (by decide), if_pos trivial, dropNegZeroElems, List.append_assoc]
    rfl

theorem readMembers_stringify : ∀ (ms : List (Text × Json)) (f : Nat) (acc : List (Text × Json))
    (r : Text), WFMembers ms → sizeMembers ms ≤ f →
    (acc.map Prod.fst ++ ms.map Prod.fst).Nodup →
    readMembers f acc (stringifyMembers ms ++ r) = some (.obj (acc ++ dropNegZeroMembers ms), r)
  | ms, 0, acc, r, _, hf, _ => by
    match ms with
    | [] => simp [sizeMembers] at hf
    | (k, v) :: ms => simp [sizeMembers] at hf
  | [], f + 1, acc, r, _, _, _ => by
    rw [stringifyMembers, readMembers, dropNegZeroMembers, List.append_nil]; rfl
  | (k, v) :: ms, f + 1, acc, r, hw, hf, hn => by
    simp only [sizeMembers] at hf
    rw [WFMembers] at hw
    have hv := readValue_stringify v f (stringifyMembers ms ++ r) hw.1 (by omega)
      (numFollow_members ms r)
    have hk : k ∉ acc.map Prod.fst := by
      intro hk
      exact (List.nodup_append.mp hn).2.2 k hk k (by simp) rfl
    have hms := readMembers_stringify ms f (acc ++ [(k, dropNegZero v)]) r hw.2 (by omega)
      (by simpa using hn)
    have hname := readName_quote k (stringify v ++ (stringifyMembers ms ++ r))
    have hj : js "," = [44] := by decide
    rw [stringifyMembers, hj, List.cons_append, List.nil_append, List.cons_append,
      readMembers, skipWs_of_starts (by unfold Starts; decide)]
    simp only [List.append_assoc, hname, hv, bind, Option.bind_some, setMember_fresh hk, hms]
    rw [if_neg (by decide), if_pos trivial, dropNegZeroMembers]
    rfl

end

/-! ## The text is long enough to pay for its reading -/

mutual

theorem size_le_length : ∀ j : Json, size j ≤ (stringify j).length
  | .null => by rw [size, stringify]; decide
  | .bool true => by rw [size, stringify]; decide
  | .bool false => by rw [size, stringify]; decide
  | .num d => by obtain ⟨u, r, h, _⟩ := toText_head d; rw [size, stringify, h]; simp
  | .str s => by
    have hj : (js "\"").length = 1 := by decide
    rw [size, stringify, quote]; simp only [List.length_append]; omega
  | .arr [] => by rw [size, stringify]; decide
  | .arr (x :: xs) => by
    have hx := size_le_length x
    have hxs := sizeElems_le_length xs
    have hj : (js "[").length = 1 := by decide
    rw [size, stringify, List.length_append, List.length_append]; omega
  | .obj [] => by rw [size, stringify]; decide
  | .obj ((k, v) :: ms) => by
    have hv := size_le_length v
    have hms := sizeMembers_le_length ms
    have hj : (js "\x7b").length = 1 := by decide
    rw [size, stringify]; simp only [List.length_append]; omega

theorem sizeElems_le_length : ∀ xs : List Json, sizeElems xs ≤ (stringifyElems xs).length
  | [] => by rw [sizeElems, stringifyElems]; decide
  | x :: xs => by
    have hx := size_le_length x
    have hxs := sizeElems_le_length xs
    have hj : (js ",").length = 1 := by decide
    rw [sizeElems, stringifyElems, List.length_append, List.length_append]; omega

theorem sizeMembers_le_length : ∀ ms : List (Text × Json),
    sizeMembers ms ≤ (stringifyMembers ms).length
  | [] => by rw [sizeMembers, stringifyMembers]; decide
  | (k, v) :: ms => by
    have hv := size_le_length v
    have hms := sizeMembers_le_length ms
    have hj : (js ",").length = 1 := by decide
    rw [sizeMembers, stringifyMembers]; simp only [List.length_append]; omega

end

/-- **JSON text round trip.** Parsing what was written gives the value back,
with negative zeros read as zeros. -/
theorem parse_stringify {j : Json} (h : WF j) : parse (stringify j) = some (dropNegZero j) := by
  have hr := readValue_stringify j ((stringify j).length + 1) [] h
    (Nat.le_succ_of_le (size_le_length j)) (by intro u hu; cases hu)
  rw [List.append_nil] at hr
  simp [parse, hr, skipWs]

/-! ## What is read is well formed -/

theorem keys_setMember {α : Type} {k x : Text} {v : α} : ∀ {ms : List (Text × α)},
    x ∈ (setMember k v ms).map Prod.fst → x = k ∨ x ∈ ms.map Prod.fst
  | [], h => by simpa [setMember] using h
  | (k', v') :: ms, h => by
    rw [setMember] at h
    split at h
    · exact .inr h
    · rw [List.map_cons, List.mem_cons] at h ⊢
      rcases h with h | h
      · exact .inr (.inl h)
      · exact (keys_setMember h).imp_right .inr

theorem nodup_setMember {α : Type} {k : Text} {v : α} : ∀ {ms : List (Text × α)},
    (ms.map Prod.fst).Nodup → ((setMember k v ms).map Prod.fst).Nodup
  | [], _ => by simp [setMember]
  | (k', v') :: ms, h => by
    obtain ⟨hnot, hnd⟩ := List.nodup_cons.mp h
    rw [setMember]
    split
    · exact h
    · next hk =>
      refine List.nodup_cons.mpr ⟨fun hin => ?_, nodup_setMember hnd⟩
      exact (keys_setMember hin).elim hk hnot

theorem wfMembers_setMember {k : Text} {v : Json} (hv : WF v) : ∀ {ms : List (Text × Json)},
    WFMembers ms → WFMembers (setMember k v ms)
  | [], _ => ⟨hv, trivial⟩
  | (k', v') :: ms, h => by
    rw [setMember]
    split
    · exact ⟨hv, h.2⟩
    · exact ⟨h.1, wfMembers_setMember hv h.2⟩

theorem wfElems_append : ∀ {xs : List Json} {y : Json}, WFElems xs → WF y → WFElems (xs ++ [y])
  | [], _, _, hy => ⟨hy, trivial⟩
  | _ :: _, _, h, hy => ⟨h.1, wfElems_append h.2 hy⟩

/-- A repeated name takes the place of the first one, so no name stands twice. -/
theorem wf_read : ∀ f : Nat,
    (∀ {s j r}, readValue f s = some (j, r) → WF j) ∧
    (∀ {acc s j r}, WFElems acc → readElems f acc s = some (j, r) → WF j) ∧
    ∀ {acc s j r}, (acc.map Prod.fst).Nodup → WFMembers acc → readMembers f acc s = some (j, r) → WF j
  | 0 => ⟨fun h => (by cases h), fun _ h => (by cases h), fun _ _ h => (by cases h)⟩
  | f + 1 => by
    obtain ⟨hvalue, helems, hmembers⟩ := wf_read f
    refine ⟨fun {s j r} h => ?_, fun {acc s j r} hacc h => ?_, fun {acc s j r} hn hacc h => ?_⟩
    · rw [readValue] at h
      split at h
      · cases h
      · split at h
        · split at h
          · split at h
            · cases h
              exact ⟨List.nodup_nil, trivial⟩
            · obtain ⟨k, -, h⟩ := Option.bind_eq_some_iff.mp h
              obtain ⟨x, hx, h⟩ := Option.bind_eq_some_iff.mp h
              refine hmembers ?_ ?_ h
              · exact List.nodup_singleton _
              · exact ⟨hvalue hx, trivial⟩
          · cases h
        · split at h
          · split at h
            · split at h
              · cases h
                trivial
              · obtain ⟨x, hx, h⟩ := Option.bind_eq_some_iff.mp h
                refine helems ?_ h
                exact ⟨hvalue hx, trivial⟩
            · cases h
          · repeat' split at h
            all_goals
              obtain ⟨_, -, heq⟩ := Option.map_eq_some_iff.mp h
              cases heq
              trivial
    · rw [readElems] at h
      split at h
      · cases h
      · split at h
        · cases h
          exact hacc
        · split at h
          · obtain ⟨x, hx, h⟩ := Option.bind_eq_some_iff.mp h
            exact helems (wfElems_append hacc (hvalue hx)) h
          · cases h
    · rw [readMembers] at h
      split at h
      · cases h
      · split at h
        · cases h
          exact ⟨hn, hacc⟩
        · split at h
          · obtain ⟨k, -, h⟩ := Option.bind_eq_some_iff.mp h
            obtain ⟨x, hx, h⟩ := Option.bind_eq_some_iff.mp h
            exact hmembers (nodup_setMember hn) (wfMembers_setMember (hvalue hx) hacc) h
          · cases h

/-- **What is parsed is well formed.** -/
theorem wf_of_parse {s : Text} {j : Json} (h : parse s = some j) : WF j := by
  unfold parse at h
  split at h
  · next j' r hr =>
    split at h
    · cases h
      exact (wf_read _).1 hr
    · cases h
  · cases h

end TypeFerry.Lib.JsonText

import Mathlib.Data.Char
import TypeFerry.Ejson.RoundTrip
import TypeFerry.Go.EjsonRoundTrip
import TypeFerry.Lib.Occurrences
import TypeFerry.Rust.EjsonRoundTrip

/-! # Flags of regular expressions in four ports

Every port drops what is no flag and all but one of equal flags. TypeScript and Go keep the last one, Python and
Rust the first one, and the flags of a `RegExp` come back in the order of the alphabet. -/
namespace TypeFerry.Ejson.Flags
open TypeFerry.Lib.Numeral TypeFerry.Lib.Unicode TypeFerry.Lib.Occurrences
open TypeFerry.Ejson.Clone (Runtime RegExp Value)
open TypeFerry.Ejson.Base64 (unitOf)

/-! ## Python -/

namespace Python

structure EJSONRegExp where
  source : Str
  flags : Str

def VALID_FLAG_CHARS : Str := str "gimuy"

/-- The loop over the filtered characters. -/
def dedupe (seen deduped : Str) : Str → Str
  | [] => deduped
  | c :: filtered => if c ∈ seen then dedupe seen deduped filtered else dedupe (c :: seen) (deduped ++ [c]) filtered

/-- `_sanitize_flags`, for a string -/
def sanitizeFlags (raw : Str) : Str := dedupe [] [] ((raw.take 50).filter (· ∈ VALID_FLAG_CHARS))

/-- `from_json_value` of the converter, for the members of a tag -/
def fromJson (source flags : Str) : EJSONRegExp := ⟨source, sanitizeFlags flags⟩

/-- `to_json_value` -/
def toJson (r : EJSONRegExp) : List (Str × Str) := [(str "$regexp", r.source), (str "$flags", r.flags)]

end Python

/-! ## Reading a tag and writing it again -/

section
variable {F : Type}

def typeScriptTag (source flags : Text) : Value := .obj [(js "$regexp", .str source), (js "$flags", .str flags)]

def typeScriptRewrite (rt : Runtime) (value : Value) : Except Text Value :=
  (Convert.fromJSONValue rt value).map (Convert.toJSONValue rt)

def pythonRewrite (source flags : Str) : List (Str × Str) := Python.toJson (Python.fromJson source flags)

def rustTag (source flags : Str) : Rust.Ejson.Json F :=
  .object [(str "$regexp", .string source), (str "$flags", .string flags)]

def rustRewrite (P : Rust.Ejson.Platform F) (value : Rust.Ejson.Json F) : Option (Rust.Ejson.Json F) :=
  (Rust.Ejson.fromJsonValue P value).map Rust.Ejson.toJsonValue

def goTag (canonical : Bool) (source flags : Str) : List (Go.Ejson.Lexeme F) :=
  Go.Ejson.writeObject canonical [(str "$regexp", [.string source]), (str "$flags", [.string flags])]

def goRewrite (P : Go.Ejson.Platform F) (factories : Str → Option (Go.Ejson.Value F → Except Go.Ejson.Error (Go.Ejson.Value F)))
    (canonical : Bool) (text : List (Go.Ejson.Lexeme F)) : Except Go.Ejson.Error (List (Go.Ejson.Lexeme F)) :=
  (Go.Ejson.Parse P factories text).map (Go.Ejson.Stringify P canonical)

theorem fromJSONValue_tag (rt : Runtime) (source flags : Text) : Convert.fromJSONValue rt (typeScriptTag source flags) =
    (rt.newRegExp source (Convert.sanitizeFlags flags)).elim (.error (js "Invalid regular expression"))
      fun r => .ok (.regexp r) := by
  let ms : List (Text × Value) := [(js "$regexp", .str source), (js "$flags", .str flags)]
  have hread : Convert.fromJSONValue rt (typeScriptTag source flags) =
      Convert.Converter.fromJSONValue rt (Convert.fromJSONValue rt) .regexp ms := rfl
  have hpattern : Convert.requireString (Clone.getOwn (js "$regexp") ms) = .ok source := rfl
  have hflags : Convert.requireString (Clone.getOwn (js "$flags") ms) = .ok flags := rfl
  rw [hread, Convert.Converter.fromJSONValue, hpattern, hflags]
  cases h : rt.newRegExp source (Convert.sanitizeFlags flags) with
  | some r =>
    simp only [bind, Except.bind, h]
    rfl
  | none =>
    simp only [bind, Except.bind, h]
    rfl

theorem typeScriptRewrite_tag {rt : Runtime} {source flags : Text} {r : RegExp}
    (h : rt.newRegExp source (Convert.sanitizeFlags flags) = some r) :
    typeScriptRewrite rt (typeScriptTag source flags) = .ok (typeScriptTag r.source r.flags) := by
  rw [typeScriptRewrite, fromJSONValue_tag, h]
  rfl

theorem typeScriptRewrite_eq_ok {rt : Runtime} {source flags : Text} {value : Value}
    (h : typeScriptRewrite rt (typeScriptTag source flags) = .ok value) :
    ∃ r, rt.newRegExp source (Convert.sanitizeFlags flags) = some r ∧ value = typeScriptTag r.source r.flags := by
  cases hr : rt.newRegExp source (Convert.sanitizeFlags flags) with
  | some r =>
    rw [typeScriptRewrite_tag hr] at h
    exact ⟨r, rfl, (Except.ok.inj h).symm⟩
  | none =>
    rw [typeScriptRewrite, fromJSONValue_tag, hr] at h
    cases h

theorem rustRewrite_tag (P : Rust.Ejson.Platform F) (source flags : Str) :
    rustRewrite P (rustTag source flags) = some (rustTag source (Rust.Ejson.sanitizeFlags flags)) := rfl

theorem goRewrite_tag (P : Go.Ejson.Platform F)
    (factories : Str → Option (Go.Ejson.Value F → Except Go.Ejson.Error (Go.Ejson.Value F))) (canonical : Bool)
    (source flags : Str) : goRewrite P factories canonical (goTag canonical source flags) =
      .ok (goTag canonical source (Go.Ejson.sanitizeFlags flags)) := by
  cases canonical <;> rfl

theorem goTag_inj {canonical : Bool} {source flags flags' : Str}
    (h : (goTag canonical source flags : List (Go.Ejson.Lexeme F)) = goTag canonical source flags') : flags = flags' := by
  -- The text of the tag, with its members in either order.
  have htext (f : Str) : (goTag canonical source f : List (Go.Ejson.Lexeme F)) =
      if canonical then [.openBrace, .string (str "$flags"), .colon, .string f, .comma, .string (str "$regexp"), .colon,
        .string source, .closeBrace]
      else [.openBrace, .string (str "$regexp"), .colon, .string source, .comma, .string (str "$flags"), .colon,
        .string f, .closeBrace] := by
    cases canonical <;> rfl
  rw [htext, htext] at h
  cases canonical <;> simpa using h

end

/-! ## The sanitizers -/

/-- The members of a list are what has to be looked at, and not all characters. -/
local instance (priority := high) decidableForallMem {α : Type*} {P : α → Prop} [DecidablePred P] (l : List α) :
    Decidable (∀ a ∈ l, P a) := List.decidableBAll P l

def validFlags : Str := str "gimuy"

def isFlag (c : Char) : Bool := c ∈ validFlags

def firstOnes (flags : Str) : Str := ((flags.take 50).filter isFlag).eraseDups

def lastOnes (flags : Str) : Str := ((flags.take 50).filter isFlag).dedup

theorem filter_notMem_cons (c : Char) (seen flags : Str) :
    (flags.filter fun x => x ∉ c :: seen) = (flags.filter fun x => x ∉ seen).filter fun x => !x == c := by
  rw [List.filter_filter]
  exact List.filter_congr fun x _ => by simp [beq_eq_decide]

theorem dedupe_eq (seen deduped flags : Str) :
    Python.dedupe seen deduped flags = deduped ++ (flags.filter (· ∉ seen)).eraseDups := by
  induction flags generalizing seen deduped with
  | nil => simp [Python.dedupe]
  | cons c flags ih =>
    rw [Python.dedupe]
    by_cases hc : c ∈ seen
    · rw [if_pos hc, ih, List.filter_cons_of_neg (by simpa using hc)]
    · rw [if_neg hc, ih, List.filter_cons_of_pos (by simpa using hc), List.eraseDups_cons, filter_notMem_cons,
        List.append_assoc]
      rfl

theorem python_sanitizeFlags (flags : Str) : Python.sanitizeFlags flags = firstOnes flags := by
  rw [Python.sanitizeFlags, dedupe_eq, List.nil_append, List.filter_eq_self.mpr fun c _ => by simp]
  rfl

theorem firstFlags_eq (seen flags : Str) :
    Rust.Ejson.firstFlags seen flags = ((flags.filter isFlag).filter (· ∉ seen)).eraseDups := by
  induction flags generalizing seen with
  | nil => rfl
  | cons c flags ih =>
    rw [Rust.Ejson.firstFlags]
    have hflag : c ∈ Rust.Ejson.VALID_FLAGS ↔ isFlag c = true := by
      rw [isFlag, decide_eq_true_iff]
      rfl
    simp only [hflag]
    cases hc : isFlag c with
    | false => rw [if_neg (by simp), ih, List.filter_cons_of_neg (by simp [hc])]
    | true =>
      by_cases hseen : c ∈ seen
      · rw [if_neg (by simp [hseen]), ih, List.filter_cons_of_pos hc, List.filter_cons_of_neg (by simpa using hseen)]
      · rw [if_pos ⟨rfl, hseen⟩, ih, List.filter_cons_of_pos hc, List.filter_cons_of_pos (by simpa using hseen),
          List.eraseDups_cons, filter_notMem_cons]

theorem rust_sanitizeFlags (flags : Str) : Rust.Ejson.sanitizeFlags flags = firstOnes flags := by
  rw [Rust.Ejson.sanitizeFlags, firstFlags_eq, firstOnes]
  simp

theorem lastFlags_eq (flags : Str) : Go.Ejson.lastFlags flags = (flags.filter isFlag).dedup := by
  induction flags with
  | nil => rfl
  | cons c flags ih =>
    rw [Go.Ejson.lastFlags, ih]
    have hflag : c ∈ Go.Ejson.validRegexFlags ↔ isFlag c = true := by
      rw [isFlag, decide_eq_true_iff]
      rfl
    simp only [hflag]
    cases hc : isFlag c with
    | false => rw [if_neg (by simp), List.filter_cons_of_neg (by simp [hc])]
    | true =>
      rw [List.filter_cons_of_pos hc]
      by_cases hflags : c ∈ flags
      · rw [if_neg (by simp [hflags]), List.dedup_cons_of_mem (List.mem_filter.mpr ⟨hflags, hc⟩)]
      · rw [if_pos ⟨rfl, hflags⟩, List.dedup_cons_of_notMem fun h => hflags (List.mem_filter.mp h).1]

theorem go_sanitizeFlags (flags : Str) : Go.Ejson.sanitizeFlags flags = lastOnes flags := by
  rw [Go.Ejson.sanitizeFlags, lastFlags_eq, lastOnes]

theorem keepLast_eq (flags : Text) : Convert.keepLast flags = flags.dedup := by
  induction flags with
  | nil => rfl
  | cons u flags ih =>
    rw [Convert.keepLast, ih]
    by_cases hu : u ∈ flags
    · rw [if_pos hu, List.dedup_cons_of_mem hu]
    · rw [if_neg hu, List.dedup_cons_of_notMem hu]

/-! ## Characters and code units -/

/-- The flags among the first fifty code units, in the order of the alphabet. -/
def unitFlags (flags : Str) : Str := validFlags.filter fun c => unitOf c ∈ (utf16 flags).take 50

/-- The flags that a `RegExp` reports. -/
def reported (flags : Text) : Text := (js "gimuy").filter (· ∈ flags)

theorem mem_take_utf16 {flags : Str} {u : UInt16} : ∀ {n : ℕ}, u ∈ (utf16 flags).take n → u ∈ utf16 (flags.take n) := by
  induction flags with
  | nil => simp [utf16]
  | cons c flags ih =>
    rintro (_ | n) h
    · simp at h
    · rw [utf16, List.flatMap_cons, List.take_append, List.mem_append] at h
      rw [List.take_succ_cons, utf16, List.flatMap_cons, List.mem_append]
      rcases h with h | h
      · exact .inl (List.mem_of_mem_take h)
      · have hlength : 1 ≤ (utf16EncodeChar c).length := List.length_pos_iff.mpr (utf16EncodeChar_ne_nil c)
        exact .inr (ih (List.take_subset_take_left _ (by omega) h))

/-- Flags have one code unit, and it belongs to no other character. -/
theorem flag_of_unit {c d : Char} (hd : isFlag d = true) (h : unitOf d ∈ utf16EncodeChar c) : c = d := by
  have hsmall : ∀ d ∈ validFlags, d.val.toNat < 128 := by decide
  have hd := hsmall d (of_decide_eq_true hd)
  have hc : c.val.toNat < 0x110000 := by
    rcases c.valid with h | h <;> omega
  rw [unitOf, show d.toNat = d.val.toNat from rfl, utf16EncodeChar] at h
  split_ifs at h with hlow
  · rw [List.mem_singleton, unit_inj (by omega) hlow] at h
    exact Char.ext (UInt32.toNat_inj.mp h.symm)
  · simp only [List.mem_cons, List.not_mem_nil, or_false] at h
    rcases h with h | h <;> rw [unit_inj (by omega) (by omega)] at h <;> omega

theorem mem_flags_of_unit {flags : Str} {c : Char} (hc : isFlag c = true) {n : ℕ} (h : unitOf c ∈ (utf16 flags).take n) :
    c ∈ flags.take n := by
  obtain ⟨d, hd, hunit⟩ := List.mem_flatMap.mp (mem_take_utf16 h)
  exact flag_of_unit hc hunit ▸ hd

theorem utf16_unitFlags (flags : Str) : utf16 (unitFlags flags) = reported ((utf16 flags).take 50) := by
  have hunits : ∀ c ∈ validFlags, utf16EncodeChar c = [unitOf c] := by decide
  have hmap : utf16 (unitFlags flags) = (unitFlags flags).map unitOf := by
    refine (List.flatMap_congr fun c hc => hunits c ?_).trans (List.flatMap_pure_eq_map _ _)
    exact List.mem_of_mem_filter hc
  rw [hmap, unitFlags, reported, show js "gimuy" = validFlags.map unitOf from rfl, List.filter_map]
  rfl

theorem mem_sanitizeFlags {flags : Text} {u : UInt16} :
    u ∈ Convert.sanitizeFlags flags ↔ u ∈ flags.take 50 ∧ u ∈ js "gimuy" := by
  rw [Convert.sanitizeFlags, keepLast_eq, List.mem_dedup, List.mem_filter, decide_eq_true_iff]

theorem reported_sanitizeFlags (flags : Text) : reported (Convert.sanitizeFlags flags) = reported (flags.take 50) :=
  List.filter_congr fun u hu => by simp [mem_sanitizeFlags, hu]

/-! ## One text in every port -/

/-- What `RegExp` does with flags: their order does not count, they are reported in the order of the alphabet, and
`source` and `flags` give the same expression again. -/
structure RegExps (rt : Runtime) : Prop where
  order : ∀ source flags flags', List.Perm flags flags' → rt.newRegExp source flags = rt.newRegExp source flags'
  alphabetical : ∀ source flags r, (∀ u ∈ flags, u ∈ js "gimuy") → rt.newRegExp source flags = some r →
    r.flags = reported flags
  again : ∀ source flags r, rt.newRegExp source flags = some r → rt.newRegExp r.source r.flags = some r

section
variable {F G : Type} (rt : Runtime) (P : Rust.Ejson.Platform F) (Q : Go.Ejson.Platform G)
  (factories : Str → Option (Go.Ejson.Value G → Except Go.Ejson.Error (Go.Ejson.Value G))) (canonical : Bool)

/-- Every port writes the flags as `text`, and as `text` again. -/
structure Normalised (source flags text : Str) : Prop where
  typeScript : ∃ source', typeScriptRewrite rt (typeScriptTag (utf16 source) (utf16 flags)) =
    .ok (typeScriptTag source' (utf16 text)) ∧
    typeScriptRewrite rt (typeScriptTag source' (utf16 text)) = .ok (typeScriptTag source' (utf16 text))
  python : pythonRewrite source flags = [(str "$regexp", source), (str "$flags", text)] ∧
    pythonRewrite source text = [(str "$regexp", source), (str "$flags", text)]
  rust : rustRewrite P (rustTag source flags) = some (rustTag source text) ∧
    rustRewrite P (rustTag source text) = some (rustTag source text)
  go : goRewrite Q factories canonical (goTag canonical source flags) = .ok (goTag canonical source text) ∧
    goRewrite Q factories canonical (goTag canonical source text) = .ok (goTag canonical source text)
  nodup : text.Nodup
  among : ∀ c ∈ text, c ∈ validFlags ∧ c ∈ flags.take 50

theorem sorted_validFlags : validFlags.Pairwise (· < ·) := by decide

theorem sorted_unitFlags (flags : Str) : (unitFlags flags).Pairwise (· < ·) := sorted_validFlags.filter _

theorem mem_unitFlags {flags : Str} {c : Char} :
    c ∈ unitFlags flags ↔ isFlag c = true ∧ unitOf c ∈ (utf16 flags).take 50 := by
  rw [unitFlags, List.mem_filter, isFlag, decide_eq_true_iff, decide_eq_true_iff]

/-- Flags in order are determined by which they are. -/
theorem sorted_ext {s t : Str} (hs : s.Pairwise (· < ·)) (ht : t.Pairwise (· < ·)) (h : ∀ c, c ∈ s ↔ c ∈ t) : s = t :=
  List.Perm.eq_of_pairwise (fun _ _ _ _ hab hba => absurd hba (lt_asymm hab)) hs ht
    ((List.perm_ext_iff_of_nodup (hs.imp ne_of_lt) (ht.imp ne_of_lt)).mpr h)

theorem mem_firstOnes {flags : Str} {c : Char} : c ∈ firstOnes flags ↔ c ∈ flags.take 50 ∧ isFlag c = true := by
  rw [firstOnes, List.mem_eraseDups, List.mem_filter]

theorem mem_lastOnes {flags : Str} {c : Char} : c ∈ lastOnes flags ↔ c ∈ flags.take 50 ∧ isFlag c = true := by
  rw [lastOnes, List.mem_dedup, List.mem_filter]

theorem sorted_firstOnes (flags : Str) :
    (firstOnes flags).Pairwise (· < ·) ↔ FirstsInOrder (· < ·) isFlag (flags.take 50) :=
  pairwise_eraseDups (fun _ _ => lt_asymm) (fun _ _ => lt_or_gt_of_ne) isFlag _

theorem sorted_lastOnes (flags : Str) :
    (lastOnes flags).Pairwise (· < ·) ↔ LastsInOrder (· < ·) isFlag (flags.take 50) :=
  pairwise_dedup (fun _ _ => lt_asymm) (fun _ _ => lt_or_gt_of_ne) isFlag _

/-- Flags in the order of the alphabet, each once, stay as they are. -/
theorem ones_of_sublist {text : Str} (h : text.Sublist validFlags) : firstOnes text = text ∧ lastOnes text = text := by
  have hnodup : text.Nodup := h.nodup (by decide)
  have htake : text.take 50 = text := List.take_of_length_le (h.length_le.trans (by decide))
  have hfilter : text.filter isFlag = text := List.filter_eq_self.mpr fun c hc => decide_eq_true (h.subset hc)
  have hlast : lastOnes text = text := by
    rw [lastOnes, htake, hfilter, hnodup.dedup]
  refine ⟨?_, hlast⟩
  rw [firstOnes, htake, hfilter, eraseDups_of_nodup hnodup]

theorem perm_unitFlags (flags : Str) : (Convert.sanitizeFlags (utf16 flags)).Perm (utf16 (unitFlags flags)) := by
  have hnodup : (reported ((utf16 flags).take 50)).Nodup := List.Nodup.filter _ (by decide)
  rw [utf16_unitFlags]
  refine (List.perm_ext_iff_of_nodup ?_ hnodup).mpr fun u => ?_
  · rw [Convert.sanitizeFlags, keepLast_eq]
    exact List.nodup_dedup _
  · rw [mem_sanitizeFlags, reported, List.mem_filter, decide_eq_true_iff, and_comm]

theorem flags_of_newRegExp {rt : Runtime} (h : RegExps rt) {source : Text} {flags : Str} {r : RegExp}
    (hr : rt.newRegExp source (Convert.sanitizeFlags (utf16 flags)) = some r) : r.flags = utf16 (unitFlags flags) := by
  rw [h.alphabetical _ _ _ (fun u hu => (mem_sanitizeFlags.mp hu).2) hr, reported_sanitizeFlags, utf16_unitFlags]

/-- **Flags are normalised alike** exactly if their first occurrences and their last occurrences are in the order
of the alphabet, none of them comes only behind the fiftieth code unit, and the pattern is accepted. -/
theorem normalised_iff {rt : Runtime} (h : RegExps rt) (source flags : Str) :
    (∃ text, Normalised rt P Q factories canonical source flags text) ↔
      FirstsInOrder (· < ·) isFlag (flags.take 50) ∧ LastsInOrder (· < ·) isFlag (flags.take 50) ∧
      (∀ c ∈ flags.take 50, isFlag c = true → unitOf c ∈ (utf16 flags).take 50) ∧
      (rt.newRegExp (utf16 source) (utf16 (unitFlags flags))).isSome = true := by
  rw [← sorted_firstOnes, ← sorted_lastOnes, ← h.order _ _ _ (perm_unitFlags flags), Option.isSome_iff_exists]
  constructor
  · rintro ⟨text, hN⟩
    obtain ⟨source', hts, -⟩ := hN.typeScript
    obtain ⟨r, hr, htag⟩ := typeScriptRewrite_eq_ok hts
    have htext : text = unitFlags flags := by
      simp only [typeScriptTag, Value.obj.injEq, List.cons.injEq, Prod.mk.injEq, Value.str.injEq] at htag
      exact utf16_injective (htag.2.1.2.trans (flags_of_newRegExp h hr))
    have hfirst : firstOnes flags = text := by
      have := hN.python.1
      simpa [pythonRewrite, Python.toJson, Python.fromJson, python_sanitizeFlags] using this
    have hlast : lastOnes flags = text := by
      have := hN.go.1
      rw [goRewrite_tag, go_sanitizeFlags] at this
      exact goTag_inj (Except.ok.inj this)
    refine ⟨?_, ?_, fun c hc hflag => ?_, r, hr⟩
    · rw [hfirst, htext]
      exact sorted_unitFlags flags
    · rw [hlast, htext]
      exact sorted_unitFlags flags
    · exact (mem_unitFlags.mp (htext ▸ hfirst ▸ mem_firstOnes.mpr ⟨hc, hflag⟩)).2
  · rintro ⟨hfirst, hlast, hunits, r, hr⟩
    have hsublist : (unitFlags flags).Sublist validFlags := List.filter_sublist
    have hmem (c : Char) : c ∈ unitFlags flags ↔ c ∈ flags.take 50 ∧ isFlag c = true := by
      rw [mem_unitFlags, and_comm]
      exact ⟨fun ⟨hunit, hc⟩ => ⟨mem_flags_of_unit hc hunit, hc⟩, fun ⟨hmem, hc⟩ => ⟨hunits c hmem hc, hc⟩⟩
    have hfirst := sorted_ext hfirst (sorted_unitFlags flags) fun c => mem_firstOnes.trans (hmem c).symm
    have hlast := sorted_ext hlast (sorted_unitFlags flags) fun c => mem_lastOnes.trans (hmem c).symm
    obtain ⟨hfirst', hlast'⟩ := ones_of_sublist hsublist
    have hflags := flags_of_newRegExp h hr
    refine ⟨unitFlags flags, ⟨r.source, ?_, ?_⟩, ?_, ?_, ?_, hsublist.nodup (by decide), fun c hc => ?_⟩
    · rw [typeScriptRewrite_tag hr, hflags]
    · have hok : RoundTrip.FlagsOk (utf16 (unitFlags flags)) := utf16_unitFlags flags ▸ List.filter_sublist
      have hagain : rt.newRegExp r.source (Convert.sanitizeFlags (utf16 (unitFlags flags))) = some r := by
        rw [RoundTrip.sanitizeFlags_ok hok, ← hflags]
        exact h.again _ _ _ hr
      rw [typeScriptRewrite_tag hagain, hflags]
    · simp only [pythonRewrite, Python.toJson, Python.fromJson, python_sanitizeFlags, hfirst, hfirst', and_self]
    · simp only [rustRewrite_tag, rust_sanitizeFlags, hfirst, hfirst', and_self]
    · simp only [goRewrite_tag, go_sanitizeFlags, hlast, hlast', and_self]
    · exact ⟨hsublist.subset hc, ((hmem c).mp hc).1⟩

end

/-- Patterns without special characters. -/
def plainRuntime : Runtime where
  toNumber _ := .nan
  newRegExp source flags :=
    if flags.Nodup ∧ ∀ u ∈ flags, u ∈ js "gimuy" then some ⟨source, reported flags⟩ else none
  customTypes _ := none

theorem regExps_plainRuntime : RegExps plainRuntime where
  order source flags flags' h := by
    have hreported : reported flags = reported flags' := List.filter_congr fun u _ => by simp [h.mem_iff]
    simp only [plainRuntime, h.nodup_iff, h.mem_iff, hreported]
  alphabetical source flags r _ h := by
    simp only [plainRuntime, Option.ite_none_right_eq_some, Option.some.injEq] at h
    obtain ⟨-, rfl⟩ := h
    rfl
  again source flags r h := by
    simp only [plainRuntime, Option.ite_none_right_eq_some, Option.some.injEq] at h
    obtain ⟨⟨hnodup, hflags⟩, rfl⟩ := h
    have hreported : reported (reported flags) = reported flags :=
      List.filter_congr fun u hu => by simp [reported, hu]
    simp only [plainRuntime]
    rw [if_pos ⟨List.Nodup.filter _ (by decide), fun u hu => List.mem_of_mem_filter hu⟩, hreported]

theorem normalised_iff_global : ∃ text, Normalised plainRuntime Rust.EjsonRoundTrip.rational Go.EjsonRoundTrip.rational
    (fun _ => none) false (str "a") (str "ggxi") text :=
  (normalised_iff Rust.EjsonRoundTrip.rational Go.EjsonRoundTrip.rational (fun _ => none) false regExps_plainRuntime
    (str "a") (str "ggxi")).mpr (by decide)

theorem multiline_global_differ : ¬∃ text, Normalised plainRuntime Rust.EjsonRoundTrip.rational
    Go.EjsonRoundTrip.rational (fun _ => none) false (str "a") (str "mg") text := by
  rintro ⟨text, h⟩
  have htext : text = str "mg" := by
    have hpython : pythonRewrite (str "a") (str "mg") = [(str "$regexp", str "a"), (str "$flags", str "mg")] := by decide
    simpa using (hpython.symm.trans h.python.1).symm
  obtain ⟨source, htypeScript, -⟩ := h.typeScript
  have hread : typeScriptRewrite plainRuntime (typeScriptTag (utf16 (str "a")) (utf16 (str "mg"))) =
      .ok (typeScriptTag (utf16 (str "a")) (utf16 (str "gm"))) := by
    have hnew : plainRuntime.newRegExp (utf16 (str "a")) (Convert.sanitizeFlags (utf16 (str "mg"))) =
        some ⟨utf16 (str "a"), utf16 (str "gm")⟩ := by decide
    exact typeScriptRewrite_tag hnew
  rw [hread, htext] at htypeScript
  simp only [typeScriptTag, Except.ok.injEq, Value.obj.injEq, List.cons.injEq, Prod.mk.injEq, Value.str.injEq] at htypeScript
  exact absurd htypeScript.2.1.2 (by decide)

end TypeFerry.Ejson.Flags

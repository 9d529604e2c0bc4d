import TypeFerry.Lib.PercentEncoding

/-! # The refresh token's cookie

The token is percent-encoded into the cookie, and read back from a `Cookie` header with a
regular expression that is made of the cookie's name. The search takes the leftmost match,
and it tolerates white space behind a semicolon. -/
namespace TypeFerry.Auth.Cookies
open TypeFerry.Lib.Numeral TypeFerry.Lib.Unicode TypeFerry.Lib.PercentEncoding

/-! ## Writing -/

structure CookieOptions where
  name : Text
  /-- whole days -/
  maxAgeDays : ℤ
  /-- `secure ?? NODE_ENV === 'production'` -/
  secure : Bool
  sameSite : Option Text
  path : Option Text

/-- The `Set-Cookie` header; `encodeURIComponent` throws for text that is not well-formed. -/
def setRefreshTokenCookie (token : Text) (options : CookieOptions) : Option Text :=
  let maxAge := options.maxAgeDays * 24 * 60 * 60
  let sameSite := options.sameSite.getD (js "Lax")
  let path := options.path.getD (js "/")
  (encodeURIComponent token).map fun encodedToken =>
    let parts := [options.name ++ js "=" ++ encodedToken, js "HttpOnly", js "Path=" ++ path,
      js "Max-Age=" ++ js (toString maxAge), js "SameSite=" ++ sameSite]
    (js "; ").intercalate (if options.secure then parts ++ [js "Secure"] else parts)

/-- The name and the value of a `Set-Cookie` header: what stands before its first semicolon,
on either side of the first equals sign. -/
def storedPair (header : Text) : Text × Text :=
  let pair := header.takeWhile (· ≠ 59)
  (pair.takeWhile (· ≠ 61), (pair.dropWhile (· ≠ 61)).tail)

/-! ## The regular expression -/

/-- The characters that have a meaning in a regular expression. -/
def isSyntax (u : UInt16) : Bool := u ∈ js ".*+?^$\x7b\x7d()|[]\\"

/-- `cookieName.replace(/[.*+?^${}()|[\]\\]/g, '\\$&')`. -/
def escapeName (name : Text) : Text := name.flatMap fun u => if isSyntax u then [92, u] else [u]

/-- The text that a regular expression of plain and escaped characters matches. -/
def literal : Text → Option Text
  | [] => some []
  | u :: rest =>
    if u = 92 then
      match rest with
      | v :: rest => if isSyntax v then (literal rest).map (v :: ·) else none
      | [] => none
    else if isSyntax u then none
    else (literal rest).map (u :: ·)

/-- `\s`. -/
def isWhiteSpace (u : UInt16) : Bool :=
  let n := u.toNat
  9 ≤ n ∧ n ≤ 13 ∨ n = 0x20 ∨ n = 0xA0 ∨ n = 0x1680 ∨ 0x2000 ≤ n ∧ n ≤ 0x200A ∨ n = 0x2028 ∨ n = 0x2029 ∨
    n = 0x202F ∨ n = 0x205F ∨ n = 0x3000 ∨ n = 0xFEFF

/-- `name=([^;]*)` at the beginning of the text. -/
def capture (name text : Text) : Option Text :=
  if (name ++ js "=").isPrefixOf text then some ((text.drop (name.length + 1)).takeWhile (· ≠ 59)) else none

/-- `\s*name=([^;]*)`: as much white space as possible is skipped. -/
def captureSpaced (name : Text) : Text → Option Text
  | [] => capture name []
  | u :: rest =>
    if isWhiteSpace u then (captureSpaced name rest).or (capture name (u :: rest)) else capture name (u :: rest)

/-- `(?:^|;\s*)name=([^;]*)` at one place of the header. -/
def matchAt (name : Text) (start : Bool) (text : Text) : Option Text :=
  (if start then capture name text else none).or
    (match text with
      | u :: rest => if u = 59 then captureSpaced name rest else none
      | [] => none)

/-- The leftmost match. -/
def search (name : Text) (start : Bool) : Text → Option Text
  | [] => matchAt name start []
  | u :: rest => (matchAt name start (u :: rest)).or (search name false rest)

/-! ## Reading -/

structure RequestLike where
  /-- the parsed cookies, if there are any: what they give for a name -/
  cookies : Option (Text → Option Text)
  cookie : Option Text

def getRefreshTokenFromRequest (req : RequestLike) (cookieName : Text) : Option Text :=
  match (req.cookies.bind fun cookies => cookies cookieName).filter (· ≠ []) with
  | some value => some value
  | none =>
    match req.cookie.filter (· ≠ []) with
    | none => none
    | some cookieHeader =>
      match (literal (escapeName cookieName)).bind fun name => search name true cookieHeader with
      | none => none
      -- If decode fails, return raw value.
      | some value => some ((decodeURIComponent value).getD value)

/-! ## Headers -/

/-- A name and a value, as they stand in a `Cookie` header. -/
def IsPair (p : Text × Text) : Prop := 59 ∉ p.1 ∧ 61 ∉ p.1 ∧ 59 ∉ p.2

instance (p : Text × Text) : Decidable (IsPair p) := inferInstanceAs (Decidable (_ ∧ _ ∧ _))

def pairText (p : Text × Text) : Text := p.1 ++ js "=" ++ p.2

def header (pairs : List (Text × Text)) : Text := (js "; ").intercalate (pairs.map pairText)

def IsCookieName (name : Text) : Prop := ∀ u ∈ name, u ≠ 59 ∧ u ≠ 44 ∧ u ≠ 61 ∧ isWhiteSpace u = false

instance (name : Text) : Decidable (IsCookieName name) := List.decidableBAll _ name

/-- The token comes back from every header in which the pair stands among pairs of other names,
where what comes before it is as required. -/
def RoundTrips (token : Str) (options : CookieOptions) (allowed : List (Text × Text) → Prop) : Prop :=
  ∃ v, (setRefreshTokenCookie (utf16 token) options).map storedPair = some (options.name, v) ∧
    ∀ before after : List (Text × Text), (∀ p ∈ before ++ after, IsPair p ∧ p.1 ≠ options.name) → allowed before →
      getRefreshTokenFromRequest ⟨none, some (header (before ++ (options.name, v) :: after))⟩ options.name =
        some (utf16 token)

/-! ## The regular expression matches the name -/

theorem literal_escapeName (name : Text) : literal (escapeName name) = some name := by
  induction name with
  | nil => rfl
  | cons u name ih =>
    rw [escapeName, List.flatMap_cons]
    split
    · next hsyntax =>
      rw [List.cons_append, List.singleton_append, literal.eq_def]
      dsimp only
      rw [if_pos rfl, if_pos hsyntax, ← escapeName, ih, Option.map_some]
    · next hplain =>
      have hne : u ≠ 92 := by
        rintro rfl
        exact hplain (by decide)
      rw [List.singleton_append, literal.eq_def]
      dsimp only
      rw [if_neg hne, if_neg hplain, ← escapeName, ih, Option.map_some]

/-! ## What the search finds -/

section
variable {name n v tail : Text} {c : UInt16}

theorem takeWhile_stop (h : c ∉ n) (rest : Text) : (n ++ c :: rest).takeWhile (· ≠ c) = n := by
  have hall : ∀ u ∈ n, decide (u ≠ c) = true := fun u hu => decide_eq_true fun heq => h (heq ▸ hu)
  rw [List.takeWhile_append_of_pos hall, List.takeWhile_cons_of_neg (by simp), List.append_nil]

theorem dropWhile_stop (h : c ∉ n) (rest : Text) : (n ++ c :: rest).dropWhile (· ≠ c) = c :: rest := by
  have hall : ∀ u ∈ n, decide (u ≠ c) = true := fun u hu => decide_eq_true fun heq => h (heq ▸ hu)
  rw [List.dropWhile_append_of_pos hall, List.dropWhile_cons_of_neg (by simp)]

/-- The end of the header, or of a pair. -/
def Ends (tail : Text) : Prop := tail = [] ∨ ∃ rest, tail = 59 :: rest

theorem takeWhile_value (hv : (59 : UInt16) ∉ v) (htail : Ends tail) : (v ++ tail).takeWhile (· ≠ 59) = v := by
  rcases htail with rfl | ⟨rest, rfl⟩
  · have hall : ∀ u ∈ v, decide (u ≠ (59 : UInt16)) = true := fun u hu => decide_eq_true fun heq => hv (heq ▸ hu)
    rw [List.takeWhile_append_of_pos hall]
    exact List.append_nil v
  · exact takeWhile_stop hv rest

theorem pairText_append : pairText (n, v) ++ tail = n ++ 61 :: (v ++ tail) := by
  rw [pairText, List.append_assoc, List.append_assoc]
  rfl

/-- At the beginning of a pair. -/
theorem capture_pair (hname : (61 : UInt16) ∉ name) (hn : (61 : UInt16) ∉ n) (hv : (59 : UInt16) ∉ v)
    (htail : Ends tail) : capture name (pairText (n, v) ++ tail) = if n = name then some v else none := by
  have hbegins : (name ++ js "=").isPrefixOf (pairText (n, v) ++ tail) = true ↔ n = name := by
    rw [List.isPrefixOf_iff_prefix, pairText_append]
    constructor
    · rintro ⟨rest, hrest⟩
      have htake := congrArg (List.takeWhile (· ≠ (61 : UInt16))) hrest
      rw [takeWhile_stop hn, List.append_assoc] at htake
      exact (takeWhile_stop hname rest).symm.trans htake |>.symm
    · rintro rfl
      exact ⟨v ++ tail, List.append_assoc ..⟩
  rw [capture]
  by_cases heq : n = name
  · rw [if_pos (hbegins.mpr heq), if_pos heq, pairText_append, heq, ← List.drop_drop, List.drop_left]
    exact congrArg some (takeWhile_value hv htail)
  · rw [if_neg (mt hbegins.mp heq), if_neg heq]

/-- A name without white space is not found where white space stands. -/
theorem capture_white (hname : ∀ u ∈ name, isWhiteSpace u = false) (hc : isWhiteSpace c = true) :
    capture name (c :: tail) = none := by
  refine if_neg fun hbegins => ?_
  rw [List.isPrefixOf_iff_prefix] at hbegins
  obtain ⟨rest, hrest⟩ := hbegins
  cases name with
  | nil =>
    rw [← (List.cons.inj hrest).1] at hc
    exact absurd hc (by decide)
  | cons u name =>
    have hu := hname u (.head _)
    rw [(List.cons.inj hrest).1, hc] at hu
    cases hu

/-- All white space is skipped. -/
theorem captureSpaced_eq (hname : ∀ u ∈ name, isWhiteSpace u = false) (text : Text) :
    captureSpaced name text = capture name (text.dropWhile isWhiteSpace) := by
  induction text with
  | nil => rfl
  | cons u text ih =>
    rw [captureSpaced]
    split
    · next hu => rw [ih, capture_white hname hu, Option.or_none, List.dropWhile_cons_of_pos hu]
    · next hu => rw [List.dropWhile_cons_of_neg hu]

theorem dropWhile_pair : (pairText (n, v) ++ tail).dropWhile isWhiteSpace =
    pairText (n.dropWhile isWhiteSpace, v) ++ tail := by
  rw [pairText_append, pairText_append]
  induction n with
  | nil => exact List.dropWhile_cons_of_neg (by decide)
  | cons u n ih =>
    rw [List.cons_append, List.dropWhile_cons, List.dropWhile_cons]
    split
    · exact ih
    · rfl

/-- Behind a semicolon and a space. -/
theorem captureSpaced_pair (hwhite : ∀ u ∈ name, isWhiteSpace u = false) (hname : (61 : UInt16) ∉ name)
    (hn : (61 : UInt16) ∉ n) (hv : (59 : UInt16) ∉ v) (htail : Ends tail) :
    captureSpaced name (32 :: (pairText (n, v) ++ tail)) =
      if n.dropWhile isWhiteSpace = name then some v else none := by
  rw [captureSpaced_eq hwhite, List.dropWhile_cons_of_pos (by decide), dropWhile_pair]
  exact capture_pair hname (fun hmem => hn ((List.dropWhile_sublist _).subset hmem)) hv htail

/-- Between semicolons nothing is found. -/
theorem search_skip (tail : Text) : ∀ {s : Text}, (59 : UInt16) ∉ s →
    search name false (s ++ tail) = search name false tail
  | [], _ => rfl
  | u :: s, h => by
    have hu : u ≠ 59 := fun heq => h (heq ▸ .head _)
    rw [List.cons_append, search, matchAt, if_neg hu, Option.or_none, search_skip tail fun hmem => h (.tail _ hmem)]
    rfl

/-- The pairs behind the first one. -/
def rest (pairs : List (Text × Text)) : Text := pairs.flatMap fun p => js "; " ++ pairText p

theorem header_cons (p : Text × Text) (pairs : List (Text × Text)) : header (p :: pairs) = pairText p ++ rest pairs := by
  induction pairs generalizing p with
  | nil => simp [header, rest]
  | cons q pairs ih =>
    rw [rest, List.flatMap_cons, ← rest, List.append_assoc (js "; "), ← ih q]
    rw [header, List.map_cons, List.map_cons, List.intercalate_cons_cons, List.append_assoc]
    rfl

theorem ends_rest (pairs : List (Text × Text)) : Ends (rest pairs) := by
  cases pairs with
  | nil => exact .inl rfl
  | cons p pairs => exact .inr ⟨_, rfl⟩

theorem semicolon_notMem_pair {p : Text × Text} (hp : IsPair p) : (59 : UInt16) ∉ pairText p := by
  simp only [pairText, List.mem_append, not_or]
  exact ⟨⟨hp.1, by decide⟩, hp.2.2⟩

/-- Behind the first pair the search takes the first pair whose name is the cookie's, white space apart. -/
theorem search_rest (hwhite : ∀ u ∈ name, isWhiteSpace u = false) (hname : (61 : UInt16) ∉ name) :
    ∀ {pairs : List (Text × Text)}, (∀ p ∈ pairs, IsPair p) → search name false (rest pairs) =
      pairs.findSome? fun p => if p.1.dropWhile isWhiteSpace = name then some p.2 else none
  | [], _ => rfl
  | p :: pairs, h => by
    have hp := h p (.head _)
    have hspaced := captureSpaced_pair hwhite hname hp.2.1 hp.2.2 (ends_rest pairs)
    have hskip : search name false (32 :: (pairText p ++ rest pairs)) = search name false (rest pairs) :=
      search_skip (rest pairs) (s := 32 :: pairText p)
        fun hmem => (List.mem_cons.mp hmem).elim (by decide) (semicolon_notMem_pair hp)
    rw [show rest (p :: pairs) = 59 :: 32 :: (pairText p ++ rest pairs) from rfl, search, hskip, matchAt,
      if_neg Bool.false_ne_true, Option.none_or, if_pos rfl, hspaced, search_rest hwhite hname fun q hq => h q (.tail _ hq),
      List.findSome?_cons]
    by_cases hfound : p.1.dropWhile isWhiteSpace = name
    · rw [if_pos hfound]
      rfl
    · rw [if_neg hfound]
      rfl

theorem search_header (hwhite : ∀ u ∈ name, isWhiteSpace u = false) (hname : (61 : UInt16) ∉ name) {p : Text × Text}
    {pairs : List (Text × Text)} (h : ∀ q ∈ p :: pairs, IsPair q) : search name true (header (p :: pairs)) =
      (if p.1 = name then some p.2 else none).or
        (pairs.findSome? fun p => if p.1.dropWhile isWhiteSpace = name then some p.2 else none) := by
  have hp := h p (.head _)
  have hcapture := capture_pair hname hp.2.1 hp.2.2 (ends_rest pairs)
  have hnot := semicolon_notMem_pair hp
  rw [header_cons, ← search_rest hwhite hname fun q hq => h q (.tail _ hq)]
  cases htext : pairText p with
  | nil => simp [pairText, js] at htext
  | cons u text =>
    rw [htext] at hcapture hnot
    have hu : u ≠ 59 := fun heq => hnot (heq ▸ .head _)
    rw [List.cons_append] at hcapture
    rw [List.cons_append, search, matchAt, if_pos rfl, hcapture, if_neg hu, Option.or_none,
      search_skip _ fun hmem => hnot (.tail _ hmem)]

end

/-! ## The round trip -/

theorem storedPair_set (token : Str) {options : CookieOptions} (hname : IsCookieName options.name) :
    (setRefreshTokenCookie (utf16 token) options).map storedPair =
      some (options.name, token.flatMap encodeCharacter) := by
  have hequals : (61 : UInt16) ∉ options.name := fun hmem => (hname 61 hmem).2.2.1 rfl
  have hpair : (59 : UInt16) ∉ options.name ++ 61 :: token.flatMap encodeCharacter := by
    simp only [List.mem_append, List.mem_cons, not_or]
    exact ⟨fun hmem => (hname 59 hmem).1 rfl, by decide, semicolon_notMem token⟩
  have hstored : ∀ attributes, storedPair (options.name ++ js "=" ++ token.flatMap encodeCharacter ++ 59 :: attributes) =
      (options.name, token.flatMap encodeCharacter) := by
    intro attributes
    have hfirst : options.name ++ js "=" ++ token.flatMap encodeCharacter = options.name ++ 61 :: token.flatMap encodeCharacter :=
      List.append_assoc ..
    rw [storedPair, hfirst, takeWhile_stop hpair, takeWhile_stop hequals, dropWhile_stop hequals]
    rfl
  rw [setRefreshTokenCookie, encodeURIComponent, characters_utf16, Option.map_some, Option.map_some, Option.map_some]
  refine congrArg some ?_
  dsimp only
  split
  · rw [List.cons_append, List.cons_append, List.intercalate_cons_cons, List.append_assoc]
    exact hstored _
  · rw [List.intercalate_cons_cons, List.append_assoc]
    exact hstored _

/-- The first pair of the name is found if no pair before it has the name behind white space. -/
theorem search_found {name v : Text} (hname : IsCookieName name) (hv : (59 : UInt16) ∉ v)
    {before after : List (Text × Text)} (hpairs : ∀ p ∈ before ++ after, IsPair p ∧ p.1 ≠ name)
    (hbefore : ∀ p ∈ before.tail, p.1.dropWhile isWhiteSpace ≠ name) :
    search name true (header (before ++ (name, v) :: after)) = some v := by
  have hequals : (61 : UInt16) ∉ name := fun hmem => (hname 61 hmem).2.2.1 rfl
  have hwhite : ∀ u ∈ name, isWhiteSpace u = false := fun u hu => (hname u hu).2.2.2
  have hall : ∀ p ∈ before ++ (name, v) :: after, IsPair p := by
    intro p hp
    rcases List.mem_append.mp hp with hp | hp
    · exact (hpairs p (List.mem_append_left _ hp)).1
    · rcases List.mem_cons.mp hp with rfl | hp
      · exact ⟨fun hmem => (hname 59 hmem).1 rfl, hequals, hv⟩
      · exact (hpairs p (List.mem_append_right _ hp)).1
  cases before with
  | nil =>
    rw [List.nil_append, search_header hwhite hequals hall, if_pos rfl]
    rfl
  | cons p before =>
    have hbare : name.dropWhile isWhiteSpace = name := by
      cases name with
      | nil => rfl
      | cons u name => exact List.dropWhile_cons_of_neg (by simp [hwhite u (.head _)])
    have hnone : before.findSome? (fun p => if p.1.dropWhile isWhiteSpace = name then some p.2 else none) = none :=
      List.findSome?_eq_none_iff.mpr fun q hq => if_neg (hbefore q hq)
    have hall' : ∀ q ∈ p :: (before ++ (name, v) :: after), IsPair q := hall
    rw [List.cons_append, search_header hwhite hequals hall', if_neg (hpairs p (.head _)).2, Option.none_or,
      List.findSome?_append, hnone, Option.none_or, List.findSome?_cons]
    dsimp only
    rw [if_pos hbare]

theorem search_nil (name : Text) : search name true [] = none := by
  have hcapture : capture name [] = none := by
    refine if_neg fun hbegins => ?_
    rw [List.isPrefixOf_iff_prefix, List.prefix_nil] at hbegins
    exact absurd hbegins (by simp [js])
  rw [search, matchAt, if_pos rfl, hcapture]
  rfl

/-- What the search finds is decoded. -/
theorem get_found {name cookieHeader : Text} {token : Str}
    (h : search name true cookieHeader = some (token.flatMap encodeCharacter)) :
    getRefreshTokenFromRequest ⟨none, some cookieHeader⟩ name = some (utf16 token) := by
  have hheader : (some cookieHeader).filter (· ≠ []) = some cookieHeader := by
    refine Option.filter_eq_some_iff.mpr ⟨rfl, decide_eq_true fun hnil => ?_⟩
    rw [hnil, search_nil] at h
    cases h
  have hliteral : (literal (escapeName name)).bind (fun name => search name true cookieHeader) =
      some (token.flatMap encodeCharacter) := by
    rw [literal_escapeName]
    exact h
  unfold getRefreshTokenFromRequest
  dsimp only [Option.bind_none, Option.filter_none]
  rw [hheader]
  dsimp only
  rw [hliteral]
  dsimp only
  rw [decode_encoded, Option.getD_some]

/-- **The round trip of the cookie.** The token comes back from every header in which no pair before
its own, the first one apart, has the cookie's name behind white space. -/
theorem cookie_roundTrips (token : Str) (options : CookieOptions) (hname : IsCookieName options.name) :
    RoundTrips token options fun before => ∀ p ∈ before.tail, p.1.dropWhile isWhiteSpace ≠ options.name :=
  ⟨_, storedPair_set token hname, fun _ _ hpairs hbefore =>
    get_found (search_found hname (semicolon_notMem token) hpairs hbefore)⟩

/-- Metacharacters in the name, and every kind of character in the token. -/
theorem cookie_roundTrips_metacharacters :
    RoundTrips "a=1; b%20 é😀".toList ⟨js "s.d$", 30, true, none, none⟩ fun before =>
      ∀ p ∈ before.tail, p.1.dropWhile isWhiteSpace ≠ js "s.d$" :=
  cookie_roundTrips "a=1; b%20 é😀".toList ⟨js "s.d$", 30, true, none, none⟩ (by decide)

/-- In `x=1;  sid=evil; sid=tok` the pair that is named ` sid` comes first. -/
theorem spacedName_found :
    ¬ ∀ (token : Str) (options : CookieOptions), IsCookieName options.name → RoundTrips token options fun _ => True := by
  intro h
  obtain ⟨v, hv, hround⟩ := h "tok".toList ⟨js "sid", 30, true, none, none⟩ (by decide)
  rw [storedPair_set _ (by decide)] at hv
  obtain rfl : _ = v := congrArg Prod.snd (Option.some.inj hv)
  have hfound := hround [(js "x", js "1"), (js " sid", js "evil")] [] (by decide) trivial
  exact absurd hfound (by decide)

end TypeFerry.Auth.Cookies

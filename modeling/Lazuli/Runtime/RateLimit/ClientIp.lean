import Lazuli.Runtime.Strings

/-!
Whose request it is (`runtime/go/lazuli/ratelimit.go`).

`clientIPFromRequest` honours `X-Forwarded-For` when the connection comes from a trusted proxy, and
reads its entries from the right. `clientAddress` is what it is for: the first entry that no trusted
proxy wrote about itself names the client, or nobody. What the sender wrote to the left of that
entry must not matter (`Unforged`); it does when that entry is no address (`unforged_iff`).
-/

namespace Lazuli.Runtime.RateLimit

open Lazuli.Runtime.Strings

variable {Addr Cidr : Type*}

/-- What is used of the packages `net` and `net/netip`: an address prints as a text that parses as
that address. -/
structure Netip (Addr Cidr : Type*) where
  parseAddr : List Char → Option Addr
  addrString : Addr → List Char
  contains : Cidr → Addr → Bool
  splitHostPort : List Char → Option (List Char × List Char)
  parse_string : ∀ ip, parseAddr (addrString ip) = some ip

/-- The part of an HTTP request that is read here. The header has a value for each line. -/
structure HttpRequest where
  remoteAddr : List Char
  xForwardedFor : List (List Char)
  deriving DecidableEq

/-- `r.Header.Get("X-Forwarded-For")`. -/
def HttpRequest.forwarded (r : HttpRequest) : List Char := r.xForwardedFor.headD []

namespace Netip

variable (net : Netip Addr Cidr) (trusted : List Cidr)

def remoteAddrToIP (addr : List Char) : Option Addr :=
  match net.splitHostPort (trimSpace addr) with
  | some (host, _) => net.parseAddr host
  | none => net.parseAddr (trimFunc (· ∈ ['[', ']']) (trimSpace addr))

def isInPrefixes (ip : Addr) (prefixes : List Cidr) : Bool := prefixes.any (net.contains · ip)

/-- The loop over the entries, from the right. -/
def scan : List (List Char) → Option (List Char)
  | [] => none
  | part :: rest =>
      let candidate := trimSpace part
      match net.parseAddr candidate with
      | none => scan rest
      | some ip => if net.isInPrefixes ip trusted then scan rest else some candidate

/-- `trusted` is the list that `SetTrustedProxies` has set. -/
def clientIPFromRequest : Option HttpRequest → List Char
  | none => []
  | some r =>
      match net.remoteAddrToIP r.remoteAddr with
      | none => r.remoteAddr
      | some remoteIP =>
          if !net.isInPrefixes remoteIP trusted then net.addrString remoteIP
          else if r.forwarded = [] then net.addrString remoteIP
          else (net.scan trusted (r.forwarded.splitOn ',').reverse).getD (net.addrString remoteIP)

/-! ### What it is for -/

/-- The entry is the address of a trusted proxy. -/
def isProxy (entry : List Char) : Bool :=
  (net.parseAddr (trimSpace entry)).any (net.isInPrefixes · trusted)

end Netip

/-- The entries of the header, none without one. -/
def HttpRequest.entries (r : HttpRequest) : List (List Char) :=
  if r.forwarded = [] then [] else r.forwarded.splitOn ','

namespace Netip

variable (net : Netip Addr Cidr) (trusted : List Cidr)

/-- The client: the remote address, or when that is a trusted proxy the rightmost entry that is
none, if it is an address. -/
def clientAddress (r : HttpRequest) : List Char :=
  match net.remoteAddrToIP r.remoteAddr with
  | none => r.remoteAddr
  | some remote =>
      if net.isInPrefixes remote trusted = false then net.addrString remote
      else match r.entries.reverse.find? (!net.isProxy trusted ·) with
        | none => net.addrString remote
        | some entry =>
            if (net.parseAddr (trimSpace entry)).isSome then trimSpace entry
            else net.addrString remote

/-- `entry` is the rightmost one that is no trusted proxy. -/
structure Rightmost (entries left : List (List Char)) (entry : List Char)
    (right : List (List Char)) : Prop where
  entries_eq : entries = left ++ entry :: right
  foreign : net.isProxy trusted entry = false
  proxies : ∀ e ∈ right, net.isProxy trusted e = true

/-- The two requests differ at most in what stands to the left of that entry. -/
def SameRight (r r' : HttpRequest) : Prop :=
  r'.remoteAddr = r.remoteAddr ∧ ∃ left left' entry right,
    net.Rightmost trusted r.entries left entry right ∧
      net.Rightmost trusted r'.entries left' entry right

/-- **The client cannot be forged**: it is the one the request has, whatever its sender wrote to the
left of the rightmost entry that is no trusted proxy. -/
structure Unforged (r : HttpRequest) : Prop where
  client : net.clientIPFromRequest trusted (some r) = net.clientAddress trusted r
  independent : ∀ r', net.SameRight trusted r r' →
    net.clientIPFromRequest trusted (some r') = net.clientIPFromRequest trusted (some r)

/-- The connection comes from a trusted proxy. -/
def FromProxy (r : HttpRequest) : Prop :=
  ∃ remote, net.remoteAddrToIP r.remoteAddr = some remote ∧
    net.isInPrefixes remote trusted = true

/-- Some entry names an address that is no trusted proxy. -/
def Outsider : Prop :=
  ∃ entry ip, ',' ∉ entry ∧ net.parseAddr (trimSpace entry) = some ip ∧
    net.isInPrefixes ip trusted = false

/-- The rightmost entry that is no trusted proxy, when the connection comes from one and there is
such an entry, is an address; or nobody could name any but trusted proxies. -/
def Legible (r : HttpRequest) : Prop :=
  net.FromProxy trusted r → ∀ left entry right, net.Rightmost trusted r.entries left entry right →
    (net.parseAddr (trimSpace entry)).isSome = true ∨ ¬ net.Outsider trusted

/-! ### The scan -/

section Scan

variable {net : Netip Addr Cidr} {trusted : List Cidr} {r r' : HttpRequest} {remote : Addr}

/-- The entry is an address, and of no trusted proxy. -/
def isOutside (net : Netip Addr Cidr) (trusted : List Cidr) (entry : List Char) : Bool :=
  (net.parseAddr (trimSpace entry)).any fun ip => !net.isInPrefixes ip trusted

theorem isOutside_iff {entry : List Char} : net.isOutside trusted entry = true ↔
    ∃ ip, net.parseAddr (trimSpace entry) = some ip ∧ net.isInPrefixes ip trusted = false := by
  cases parsed : net.parseAddr (trimSpace entry) <;> simp [isOutside, parsed]

theorem scan_eq (parts : List (List Char)) :
    net.scan trusted parts = (parts.find? (net.isOutside trusted)).map trimSpace := by
  induction parts with
  | nil => rfl
  | cons part rest ih =>
      cases parsed : net.parseAddr (trimSpace part) with
      | none => simp [scan, isOutside, parsed, ih]
      | some ip => cases inside : net.isInPrefixes ip trusted <;>
          simp [scan, isOutside, parsed, inside, ih]

/-- What the scan stops at is no trusted proxy. -/
theorem outside_of_scan {parts : List (List Char)} {text : List Char}
    (h : net.scan trusted parts = some text) :
    ∃ ip, net.parseAddr text = some ip ∧ net.isInPrefixes ip trusted = false := by
  rw [scan_eq, Option.map_eq_some_iff] at h
  obtain ⟨entry, found, rfl⟩ := h
  exact isOutside_iff.mp (List.find?_some found)

theorem isOutside_of_isProxy {entry : List Char} (h : net.isProxy trusted entry = true) :
    net.isOutside trusted entry = false := by
  unfold isProxy isOutside at *
  cases parsed : net.parseAddr (trimSpace entry) with
  | none => rfl
  | some ip => simpa [parsed] using h

theorem isOutside_of_foreign {entry : List Char} (h : net.isProxy trusted entry = false) :
    net.isOutside trusted entry = (net.parseAddr (trimSpace entry)).isSome := by
  unfold isProxy isOutside at *
  cases parsed : net.parseAddr (trimSpace entry) with
  | none => rfl
  | some ip => simpa [parsed] using h

theorem find?_of_rightmost {entries left right : List (List Char)} {entry : List Char}
    (h : net.Rightmost trusted entries left entry right) :
    entries.reverse.find? (!net.isProxy trusted ·) = some entry := by
  have skipped : right.reverse.find? (!net.isProxy trusted ·) = none := by
    rw [List.find?_eq_none]
    intro e he
    simp [h.proxies e (List.mem_reverse.mp he)]
  rw [h.entries_eq, List.reverse_append, List.reverse_cons, List.append_assoc, List.find?_append,
    skipped, Option.none_or, List.singleton_append, List.find?_cons_of_pos (by simp [h.foreign])]

/-- From the right, the scan comes to that entry first. -/
theorem scan_of_rightmost {entries left right : List (List Char)} {entry : List Char}
    (h : net.Rightmost trusted entries left entry right) :
    net.scan trusted entries.reverse =
      if (net.parseAddr (trimSpace entry)).isSome then some (trimSpace entry)
      else net.scan trusted left.reverse := by
  have skipped : right.reverse.find? (net.isOutside trusted) = none := by
    rw [List.find?_eq_none]
    intro e he
    rw [isOutside_of_isProxy (h.proxies e (List.mem_reverse.mp he))]
    exact Bool.false_ne_true
  rw [scan_eq, scan_eq, h.entries_eq, List.reverse_append, List.reverse_cons, List.append_assoc,
    List.find?_append, skipped, Option.none_or, List.singleton_append, List.find?_cons,
    isOutside_of_foreign h.foreign]
  cases (net.parseAddr (trimSpace entry)).isSome <;> rfl

theorem exists_rightmost {entries : List (List Char)} {entry : List Char}
    (h : entries.reverse.find? (!net.isProxy trusted ·) = some entry) :
    ∃ left right, net.Rightmost trusted entries left entry right := by
  obtain ⟨foreign, front, back, split, proxies⟩ := List.find?_eq_some_iff_append.mp h
  refine ⟨back.reverse, front.reverse, ?_, by simpa using foreign, fun e he => ?_⟩
  · rw [← List.reverse_reverse entries, split]
    simp
  · simpa using proxies e (List.mem_reverse.mp he)

/-! ### Both answers -/

theorem clientIP_of_fromProxy (hr : net.remoteAddrToIP r.remoteAddr = some remote)
    (inside : net.isInPrefixes remote trusted = true) :
    net.clientIPFromRequest trusted (some r) =
      (net.scan trusted r.entries.reverse).getD (net.addrString remote) := by
  unfold clientIPFromRequest HttpRequest.entries
  by_cases absent : r.forwarded = []
  · simp [hr, inside, absent, scan]
  · simp [hr, inside, absent]

theorem clientIP_of_not_fromProxy (h : ¬ net.FromProxy trusted r) :
    net.clientIPFromRequest trusted (some r) = net.clientAddress trusted r := by
  unfold clientIPFromRequest clientAddress
  cases hr : net.remoteAddrToIP r.remoteAddr with
  | none => simp [hr]
  | some remote =>
      have outside : net.isInPrefixes remote trusted = false := by
        by_contra inside
        exact h ⟨remote, hr, by simpa using inside⟩
      simp [hr, outside]

theorem clientAddress_of_rightmost (hr : net.remoteAddrToIP r.remoteAddr = some remote)
    (inside : net.isInPrefixes remote trusted = true) {left right : List (List Char)}
    {entry : List Char} (h : net.Rightmost trusted r.entries left entry right) :
    net.clientAddress trusted r =
      if (net.parseAddr (trimSpace entry)).isSome then trimSpace entry
      else net.addrString remote := by
  unfold clientAddress
  simp [hr, inside, find?_of_rightmost h]

/-- When no entry is foreign, the remote address is the answer. -/
theorem clientIP_of_all_proxies (hr : net.remoteAddrToIP r.remoteAddr = some remote)
    (inside : net.isInPrefixes remote trusted = true)
    (h : r.entries.reverse.find? (!net.isProxy trusted ·) = none) :
    net.clientIPFromRequest trusted (some r) = net.clientAddress trusted r := by
  have skipped : r.entries.reverse.find? (net.isOutside trusted) = none := by
    rw [List.find?_eq_none] at h ⊢
    intro e he
    rw [isOutside_of_isProxy (by simpa using h e he)]
    exact Bool.false_ne_true
  rw [clientIP_of_fromProxy hr inside, scan_eq, skipped, clientAddress]
  simp [hr, inside, h]

/-- A trusted remote address is not what the scan stops at. -/
theorem scan_ne_remote (inside : net.isInPrefixes remote trusted = true)
    (parts : List (List Char)) : net.scan trusted parts ≠ some (net.addrString remote) := by
  intro found
  obtain ⟨ip, parsed, outside⟩ := outside_of_scan found
  rw [net.parse_string] at parsed
  cases parsed
  rw [inside] at outside
  cases outside

/-- Where every address is trusted, the scan finds nobody. -/
theorem scan_of_no_outsider (h : ¬ net.Outsider trusted) (r : HttpRequest) :
    net.scan trusted r.entries.reverse = none := by
  rw [scan_eq, Option.map_eq_none_iff, List.find?_eq_none]
  intro entry mem outside
  obtain ⟨ip, parsed, untrusted⟩ := isOutside_iff.mp outside
  refine h ⟨entry, ip, ?_, parsed, untrusted⟩
  rw [List.mem_reverse, HttpRequest.entries] at mem
  split at mem
  · cases mem
  · exact notMem_of_mem_splitOn mem

/-- Without a trusted connection the header is not read. -/
theorem clientIP_congr_of_not_fromProxy (h : ¬ net.FromProxy trusted r)
    (same : r'.remoteAddr = r.remoteAddr) :
    net.clientIPFromRequest trusted (some r') = net.clientIPFromRequest trusted (some r) := by
  unfold clientIPFromRequest
  simp only [same]
  cases hr : net.remoteAddrToIP r.remoteAddr with
  | none => rfl
  | some remote =>
      have outside : net.isInPrefixes remote trusted = false := by
        by_contra inside
        exact h ⟨remote, hr, by simpa using inside⟩
      simp [outside]

end Scan

/-- **Where the client cannot be forged.** -/
theorem unforged_iff (net : Netip Addr Cidr) (trusted : List Cidr) (r : HttpRequest) :
    net.Unforged trusted r ↔ net.Legible trusted r := by
  constructor
  · rintro unforged ⟨remote, hr, inside⟩ left entry right h
    by_contra illegible
    rw [not_or, not_not] at illegible
    obtain ⟨unparsed, text, ip, comma, parsed, outside⟩ := illegible
    have client := unforged.client
    rw [clientIP_of_fromProxy hr inside, clientAddress_of_rightmost hr inside h, if_neg unparsed]
      at client
    -- nobody stands to the left of the entry, as the code would have found him
    have nobody : net.scan trusted r.entries.reverse = none := by
      cases found : net.scan trusted r.entries.reverse with
      | none => rfl
      | some address =>
          rw [found, Option.getD_some] at client
          exact absurd (client ▸ found) (scan_ne_remote inside _)
    -- the sender writes an address there
    have present : r.forwarded ≠ [] := by
      intro absent
      have := h.entries_eq
      rw [HttpRequest.entries, if_pos absent] at this
      simp at this
    let r' : HttpRequest := { r with xForwardedFor := [text ++ ',' :: r.forwarded] }
    have entries : r'.entries = text :: r.entries := by
      have nonempty : r'.forwarded ≠ [] := by simp [r', HttpRequest.forwarded]
      rw [HttpRequest.entries, if_neg nonempty, HttpRequest.entries, if_neg present]
      show (text ++ ',' :: r.forwarded).splitOn ',' = _
      rw [List.splitOn_append_cons_self, List.splitOn_eq_singleton comma]
      rfl
    have h' : net.Rightmost trusted r'.entries (text :: left) entry right :=
      ⟨by rw [entries, h.entries_eq]; rfl, h.foreign, h.proxies⟩
    have same := unforged.independent r' ⟨rfl, left, text :: left, entry, right, h, h'⟩
    have stop : net.scan trusted r'.entries.reverse = some (trimSpace text) := by
      have here : net.isOutside trusted text = true := isOutside_iff.mpr ⟨ip, parsed, outside⟩
      rw [scan_eq, Option.map_eq_none_iff] at nobody
      rw [scan_eq, entries, List.reverse_cons, List.find?_append, nobody, Option.none_or,
        List.find?_cons_of_pos here]
      rfl
    rw [clientIP_of_fromProxy (r := r') hr inside, clientIP_of_fromProxy hr inside, nobody, stop]
      at same
    exact scan_ne_remote inside _ (stop.trans (congrArg some same))
  · intro legible
    by_cases fromProxy : net.FromProxy trusted r
    case neg =>
      exact ⟨clientIP_of_not_fromProxy fromProxy,
        fun r' ⟨same, _⟩ => clientIP_congr_of_not_fromProxy fromProxy same⟩
    case pos =>
      obtain ⟨remote, hr, inside⟩ := id fromProxy
      constructor
      · cases found : r.entries.reverse.find? (!net.isProxy trusted ·) with
        | none => exact clientIP_of_all_proxies hr inside found
        | some entry =>
            obtain ⟨left, right, h⟩ := exists_rightmost found
            rw [clientIP_of_fromProxy hr inside, clientAddress_of_rightmost hr inside h]
            rcases legible fromProxy left entry right h with parsed | nobody
            · rw [scan_of_rightmost h, if_pos parsed, if_pos parsed, Option.getD_some]
            · have none := scan_of_no_outsider nobody r
              rw [none]
              rw [scan_of_rightmost h] at none
              split at none
              case isTrue => cases none
              case isFalse unparsed => rw [if_neg unparsed, Option.getD_none]
      · rintro r' ⟨same, left, left', entry, right, h, h'⟩
        rw [clientIP_of_fromProxy hr inside, clientIP_of_fromProxy (same ▸ hr) inside]
        rcases legible fromProxy left entry right h with parsed | nobody
        · rw [scan_of_rightmost h, scan_of_rightmost h', if_pos parsed, if_pos parsed]
        · rw [scan_of_no_outsider nobody, scan_of_no_outsider nobody]

/-! ### A forged client -/

/-- A number up to 255 in decimal. -/
def isOctet (s : List Char) : Bool :=
  s ≠ [] && s.all Char.isDigit && Nat.ofDigitChars 10 s 0 ≤ 255 &&
    (s.length = 1 || s.head? ≠ some '0')

def isQuad (s : List Char) : Bool :=
  (s.splitOn '.').length = 4 && (s.splitOn '.').all isOctet

/-- The packages on IPv4 addresses, with networks of whole octets. -/
def dottedQuad : Netip {s : List Char // isQuad s = true} (List Char) where
  parseAddr s := if h : isQuad s = true then some ⟨s, h⟩ else none
  addrString := Subtype.val
  contains network ip := network.isPrefixOf ip.val
  splitHostPort s := match s.splitOn ':' with
    | [host, port] => some (host, port)
    | _ => none
  parse_string ip := dif_pos ip.property

/-- The proxy names its peer with the port, and the sender another client before it. -/
def forged : HttpRequest where
  remoteAddr := "10.0.0.5:1234".toList
  xForwardedFor := ["203.0.113.9, 198.51.100.7:4431".toList]

theorem forged_client :
    dottedQuad.clientIPFromRequest ["10.".toList] (some forged) = "203.0.113.9".toList ∧
      dottedQuad.clientAddress ["10.".toList] forged = "10.0.0.5".toList ∧
      ¬ dottedQuad.Unforged ["10.".toList] forged := by
  have answer : dottedQuad.clientIPFromRequest ["10.".toList] (some forged) =
      "203.0.113.9".toList := by decide
  have client : dottedQuad.clientAddress ["10.".toList] forged = "10.0.0.5".toList := by decide
  refine ⟨answer, client, fun unforged => ?_⟩
  have same := unforged.client
  rw [answer, client] at same
  revert same
  decide

end Netip

end Lazuli.Runtime.RateLimit

import DripCore.MoneyStr

/-!
# Addresses from HTTP seeds

`ParseHTTPSeedResponse` splits an entry of the response at its first colon and takes the port from
`atoi`, in sixteen bits. `SplitHostPort` splits at the last colon, takes brackets off and accepts
only numbers of sixteen bits. `LookupHost`, which both hosts are meant for, takes brackets off as
well, so a bracketed host is found by either way.

The two agree on an entry exactly if it has at most one colon and its host is not bracketed twice.
What the port text of other entries leads to depends on the number at its start: the code takes it
modulo sixteen bits, after `atoi` has brought it into the range of a `long`. The conditions are
about the text of each entry, and the result is about all entries of a response in either of the
formats.
-/
namespace DripCore
open List Nat

inductive UniValue where
  | null
  | bool (b : Bool)
  | num (text : List Char)
  | str (s : List Char)
  | arr (values : List UniValue)
  | obj (members : List (List Char × UniValue))

/-- `operator[]` with a key: the first member that has it. -/
def UniValue.member (key : String) : UniValue → UniValue
  | .obj members => ((members.find? fun m => m.1 == key.toList).map Prod.snd).getD .null
  | _ => .null

/-- `atoi`: what `LocaleIndependentAtoi` reads of a `long`, before the first zero. -/
def atoi (str : List Char) : ℤ := localeIndependentAtoi (str.takeWhile (· != '\x00'))

/-- What is done for an entry: addresses with their ports, or a name to be fetched. -/
inductive SeedAction (Addr : Type) where
  | pushAddresses (addresses : List (Addr × ℕ))
  | addAddrFetch (strDest : List Char)
deriving DecidableEq

def isBracketed (s : List Char) : Bool := s.head? == some '[' && s.getLast? == some ']'

def stripBrackets (s : List Char) : List Char := if isBracketed s then s.tail.dropLast else s

section Source
variable {Addr : Type} (lookupIntern : List Char → List Addr) (defaultPort : ℕ)

/-- The addresses of a name. What `LookupIntern` finds for a host is arbitrary. -/
def lookupHost (name : List Char) : List Addr :=
  if containsNoNUL name = false ∨ name = [] then [] else lookupIntern (stripBrackets name)

/-- The port that a text stands for, with the default in place of zero. -/
def seedPort (portStr : List Char) : ℕ :=
  let port := (atoi portStr % 2^16).toNat
  if port = 0 then defaultPort else port

/-- The host and the port of an entry. -/
def seedHostPort (addrStr : List Char) : List Char × ℕ :=
  let addrStr := if ':' ∈ addrStr then addrStr else addrStr ++ ':'::toDigits 10 defaultPort
  (addrStr.takeWhile (· != ':'),seedPort defaultPort (addrStr.dropWhile (· != ':')).tail)

def seedAction (lookup : List Char → List Addr) (host : List Char) (port : ℕ) : SeedAction Addr :=
  if lookup host ≠ [] then .pushAddresses ((lookup host).map fun netAddr => (netAddr, port))
  else .addAddrFetch (host ++ ':'::toDigits 10 port)

/-- The text of an entry; other entries are passed over. -/
def seedText : UniValue → List Char
  | .str s => s
  | .obj members =>
    match (UniValue.obj members).member "address" with
    | .str s => s
    | _ => []
  | _ => []

/-- The nodes in a response of one of the two formats. -/
def seedNodes : UniValue → Option (List UniValue)
  | .arr values => some values
  | .obj members =>
    match (UniValue.obj members).member "nodes" with
    | .arr values => some values
    | _ => none
  | _ => none

/-- The texts of the entries that are not passed over. -/
def seedTexts (nodes : List UniValue) : List (List Char) := (nodes.map seedText).filter (· ≠ [])

/-- What is done for the text of an entry. -/
def seedEntry (addrStr : List Char) : SeedAction Addr :=
  seedAction (lookupHost lookupIntern) (seedHostPort defaultPort addrStr).1
    (seedHostPort defaultPort addrStr).2

def parseHTTPSeedResponse (root : Option UniValue) : Option (List (SeedAction Addr)) := do
  let nodes ← seedNodes (← root)
  return (seedTexts nodes).map (seedEntry lookupIntern defaultPort)

/-- `ToIntegral<uint16_t>`. -/
def toIntegral16 (str : List Char) : Option ℕ :=
  if str ≠ [] ∧ str.all Char.isDigit ∧ decimal str < 2^16 then some (decimal str) else none

/-- A text at its last colon. -/
def lastColon : List Char → Option (List Char × List Char)
  | [] => none
  | c::s =>
    match lastColon s with
    | some (before,after) => some (c::before,after)
    | none => if c = ':' then some ([],s) else none

/-- Whether the text is valid, the port if it is written, and the host. -/
def splitHostPort (s : List Char) : Bool × Option ℕ × List Char :=
  match lastColon s with
  | some (before,after) =>
    if before = [] ∨ isBracketed before ∨ ':' ∉ before then
      match toIntegral16 after with
      | some n => (n ≠ 0,some n,stripBrackets before)
      | none => (false,none,stripBrackets s)
    else (true,none,stripBrackets s)
  | none => (true,none,stripBrackets s)

end Source

/-- The number at the start of a text, after blanks and a sign. -/
def startingNumber (str : List Char) : ℤ :=
  match trimString (str.takeWhile (· != '\x00')) with
  | '+' :: s => decimal (s.takeWhile Char.isDigit)
  | '-' :: s => -decimal (s.takeWhile Char.isDigit)
  | s => decimal (s.takeWhile Char.isDigit)

/-- A host that `LookupHost` hands on. -/
def Lookable (host : List Char) : Prop := host ≠ [] ∧ '\x00' ∉ host

/-- What is done for an entry agrees with `SplitHostPort` where that accepts the entry and the host
is found. A port text that is no port leads to the default port or to the number that it starts
with, if it leads to an address. -/
structure FaithfulAction {Addr : Type} (lookupIntern : List Char → List Addr) (defaultPort : ℕ)
    (s : List Char) (action : SeedAction Addr) : Prop where
  agrees : ∀ port host, splitHostPort s = (true, port, host) → lookupHost lookupIntern host ≠ [] →
    action = .pushAddresses
      ((lookupHost lookupIntern host).map fun netAddr => (netAddr, port.getD defaultPort))
  noWrap : ∀ host portStr, s = host ++ ':' :: portStr → ':' ∉ host →
    (∀ n, toIntegral16 portStr = some n → n = 0) →
    ∀ addresses, action = .pushAddresses addresses → ∀ netAddr ∈ addresses,
      netAddr.2 = defaultPort ∨ (netAddr.2 : ℤ) = startingNumber portStr

/-- All entries of a response are dealt with faithfully, whatever the hosts lead to. -/
def FaithfulResponse (defaultPort : ℕ) (root : UniValue) (nodes : List UniValue) : Prop :=
  ∀ (Addr : Type) (lookupIntern : List Char → List Addr), ∃ actions,
    parseHTTPSeedResponse lookupIntern defaultPort (some root) = some actions ∧
      Forall₂ (FaithfulAction lookupIntern defaultPort) (seedTexts nodes) actions

/-- A text whose number is a port or zero, or a multiple of `2 ^ 16`, alone or with the default
port. A number beyond the range of a `long` counts as the nearest bound of the range. -/
def PlainPort (defaultPort : ℕ) (portStr : List Char) : Prop :=
  0 ≤ startingNumber portStr ∧ startingNumber portStr < 2 ^ 16 ∨
  startingNumber portStr < -2 ^ 63 ∨
  2 ^ 63 ≤ startingNumber portStr ∧ defaultPort = 2 ^ 16 - 1 ∨
  startingNumber portStr < 2 ^ 63 ∧
    ((2 ^ 16 : ℤ) ∣ startingNumber portStr ∨ (2 ^ 16 : ℤ) ∣ startingNumber portStr - defaultPort)

/-- At most one colon, a host that is not bracketed twice, and a plain port text. -/
structure PlainSeed (defaultPort : ℕ) (s : List Char) : Prop where
  plain : (splitHostPort s).1 = true → Lookable (splitHostPort s).2.2 →
    s.count ':' ≤ 1 ∧ isBracketed (stripBrackets (s.takeWhile (· != ':'))) = false
  fits : ∀ host portStr, s = host ++ ':' :: portStr → ':' ∉ host → Lookable host →
    PlainPort defaultPort portStr

section Texts

theorem lastColon_spec (s : List Char) :
    match lastColon s with
    | some (before,after) => s = before ++ ':'::after ∧ ':' ∉ after
    | none => ':' ∉ s := by
  induction s with
  | nil => exact not_mem_nil
  | cons c s ih =>
    rw [lastColon]
    cases hs : lastColon s with
    | some p =>
      rw [hs] at ih
      exact ⟨by rw [cons_append,← ih.1],ih.2⟩
    | none =>
      rw [hs] at ih
      dsimp only
      split_ifs with hc
      · exact ⟨by rw [hc,nil_append],ih⟩
      · exact fun hm => (mem_cons.mp hm).elim (fun h => hc h.symm) ih

theorem isBracketed_eq {s : List Char} (h : isBracketed s = true) : ∃ i, s = '['::(i++[']']) := by
  rw [isBracketed,Bool.and_eq_true,beq_iff_eq,beq_iff_eq] at h
  cases s with
  | nil => exact absurd h.1 (by simp)
  | cons c t =>
    obtain rfl : c = '[' := by simpa using h.1
    rcases eq_nil_or_concat t with rfl | ⟨i,d,rfl⟩
    · exact absurd h.2 (by decide)
    · rw [concat_eq_append,← cons_append,getLast?_concat] at h
      exact ⟨i,by rw [concat_eq_append,Option.some.inj h.2]⟩

theorem eq_stripBrackets {s : List Char} : s = stripBrackets s ↔ isBracketed s = false := by
  rw [stripBrackets]
  split_ifs with h
  · obtain ⟨i,rfl⟩ := isBracketed_eq h
    rw [tail_cons,dropLast_concat,h]
    refine ⟨fun heq => ?_,fun h => absurd h (by decide)⟩
    have hl := congrArg length heq
    simp at hl
    omega
  · simpa using h

theorem mem_stripBrackets {c : Char} {s : List Char} (hc : c ≠ '[' ∧ c ≠ ']') :
    c ∈ stripBrackets s ↔ c ∈ s := by
  rw [stripBrackets]
  split_ifs with hb
  · obtain ⟨i, rfl⟩ := isBracketed_eq hb
    rw [tail_cons, dropLast_concat]
    simp [hc.1, hc.2]
  · rfl

theorem lookupHost_eq {Addr : Type} (lookupIntern : List Char → List Addr) {host : List Char}
    (h : Lookable host) : lookupHost lookupIntern host = lookupIntern (stripBrackets host) := by
  have hn : containsNoNUL host = true := by simpa [containsNoNUL] using h.2
  rw [lookupHost, if_neg (by simp [hn, h.1])]

theorem lookable_of_ne_nil {Addr : Type} {lookupIntern : List Char → List Addr} {host : List Char}
    (h : lookupHost lookupIntern host ≠ []) : Lookable host := by
  rw [lookupHost] at h
  obtain ⟨hn, hne⟩ := not_or.mp fun hn => h (if_pos hn)
  exact ⟨hne, by simpa [containsNoNUL] using hn⟩

theorem takeWhile_colon {host : List Char} (h : ':' ∉ host) (portStr : List Char) :
    (host ++ ':'::portStr).takeWhile (· != ':') = host ∧
      ((host ++ ':'::portStr).dropWhile (· != ':')).tail = portStr := by
  have ha : ∀ c ∈ host, (c != ':') = true := fun c hc => by
    rw [bne_iff_ne]
    exact fun heq => h (heq ▸ hc)
  constructor
  · rw [takeWhile_append_of_pos ha,takeWhile_cons,if_neg (by decide),append_nil]
  · rw [dropWhile_append_of_pos ha,dropWhile_cons,if_neg (by decide),tail_cons]

theorem atoi_of_allDigits {t : List Char} (h : AllDigits t) (hlt : decimal t < 2^16) :
    atoi t = decimal t := by
  have hn : t.takeWhile (· != '\x00') = t := takeWhile_eq_self_iff.mpr fun c hc => by
    rw [bne_iff_ne]
    rintro rfl
    exact absurd (h _ hc) (by decide)
  rw [atoi,hn,atoi_digits h (by omega)]

theorem toIntegral16_eq_some {t : List Char} {n : ℕ} (h : toIntegral16 t = some n) :
    n < 2^16 ∧ atoi t = n := by
  rw [toIntegral16] at h
  split_ifs at h with ht
  obtain rfl := Option.some.inj h
  exact ⟨ht.2.2,atoi_of_allDigits (all_eq_true.mp ht.2.1) ht.2.2⟩

/-- `atoi` is the number at the start of the text, in the range of a `long`. -/
theorem atoi_eq (str : List Char) : atoi str =
    if startingNumber str < -2 ^ 63 then -2 ^ 63
    else if 2 ^ 63 ≤ startingNumber str then 2 ^ 63 - 1 else startingNumber str := by
  have hl (s : List Char) : (leadingNumber s).getD 0 = decimal (s.takeWhile Char.isDigit) := by
    rw [leadingNumber]
    split_ifs with he
    · rw [isEmpty_iff.mp he]
      rfl
    · rfl
  have hs (s : List Char) : saturatedNumber s = if (fromChars s).getD 0 < -2 ^ 63 then -2 ^ 63
      else if 2 ^ 63 ≤ (fromChars s).getD 0 then 2 ^ 63 - 1 else (fromChars s).getD 0 := by
    rw [saturatedNumber]
    cases fromChars s with
    | none => rfl
    | some n => rfl
  have hp (s : List Char) (h : ∀ t, s ≠ '-' :: t) : fromChars s = leadingNumber s := by
    rw [fromChars]
    exact fun t ht => h t ht
  rw [atoi, localeIndependentAtoi, startingNumber]
  split
  · next heq =>
      rw [heq]
      rfl
  · next t hne heq =>
      rw [heq, hs, hp t hne, hl]
      rfl
  · next hne hne' =>
      split
      · next t heq => exact absurd heq (hne' t)
      · next t heq =>
          rw [heq, hs, fromChars, ← hl]
          cases leadingNumber t with
          | none => rfl
          | some n => rfl
      · next hm => rw [hs, hp _ hm, hl]

theorem seedPort_of_lt {defaultPort n : ℕ} {portStr : List Char} (h : atoi portStr = n)
    (hn : n < 2^16) :
    seedPort defaultPort portStr = if n = 0 then defaultPort else n := by
  have hm : (atoi portStr % 2^16).toNat = n := by omega
  rw [seedPort,hm]

end Texts

section Entries
variable {defaultPort : ℕ} {host portStr : List Char} (h : ':' ∉ host)
include h

theorem seedHostPort_colon :
    seedHostPort defaultPort (host ++ ':'::portStr) = (host,seedPort defaultPort portStr) := by
  rw [seedHostPort,if_pos (by simp),(takeWhile_colon h portStr).1,(takeWhile_colon h portStr).2]

theorem seedHostPort_bare (hp : 0 < defaultPort ∧ defaultPort < 2^16) :
    seedHostPort defaultPort host = (host,defaultPort) := by
  have hd : decimal (toDigits 10 defaultPort) = defaultPort := ofDigitChars_toDigits (by norm_num)
    (by norm_num)
  have hn : atoi (toDigits 10 defaultPort) = defaultPort := by
    rw [atoi_of_allDigits (allDigits_toDigits _) (by rw [hd]; exact hp.2),hd]
  rw [seedHostPort,if_neg h,(takeWhile_colon h _).1,(takeWhile_colon h _).2,
    seedPort_of_lt hn hp.2,if_neg hp.1.ne']

end Entries

/-- The host is what comes before the first colon. -/
theorem seedHostPort_fst (defaultPort : ℕ) (s : List Char) :
    (seedHostPort defaultPort s).1 = s.takeWhile (· != ':') := by
  rw [seedHostPort]
  split_ifs with ho
  · rfl
  · rw [(takeWhile_colon ho _).1, takeWhile_eq_self_iff.mpr fun c hc => ?_]
    rw [bne_iff_ne]
    exact fun heq => ho (heq ▸ hc)

theorem colon_not_mem_host (defaultPort : ℕ) (s : List Char) :
    ':' ∉ (seedHostPort defaultPort s).1 := by
  rw [seedHostPort_fst]
  exact fun hm => absurd (mem_takeWhile_imp hm) (by decide)

/-- The two ways to split an entry that `SplitHostPort` accepts: up to brackets they agree, or the
entry has two colons and its host has one. -/
theorem splitHostPort_cases {defaultPort : ℕ} (hport : 0 < defaultPort ∧ defaultPort < 2 ^ 16)
    {s : List Char} {port : Option ℕ} {host : List Char}
    (h : splitHostPort s = (true, port, host)) :
    s.count ':' ≤ 1 ∧ host = stripBrackets (seedHostPort defaultPort s).1 ∧
        port.getD defaultPort = (seedHostPort defaultPort s).2 ∨
      1 < s.count ':' ∧ ':' ∈ host := by
  have hcolon {t : List Char} (ht : ':' ∈ t) : ':' ∈ stripBrackets t :=
    (mem_stripBrackets (by decide)).mpr ht
  by_cases ho : ':' ∈ s
  · obtain ⟨first, portStr, rfl, hf⟩ := eq_append_cons_of_mem ho
    rw [seedHostPort_colon hf, count_append, count_eq_zero_of_not_mem hf, count_cons_self]
    have hl := lastColon_spec (first ++ ':' :: portStr)
    rw [splitHostPort] at h
    cases hs : lastColon (first ++ ':' :: portStr) with
    | none =>
      rw [hs] at hl
      exact absurd ho hl
    | some p =>
      obtain ⟨before, after⟩ := p
      rw [hs] at hl h
      dsimp only at hl h
      have ht := congrArg (count ':') hl.1
      rw [count_append, count_append, count_cons_self, count_cons_self,
        count_eq_zero_of_not_mem hf, count_eq_zero_of_not_mem hl.2] at ht
      by_cases hb : ':' ∈ before
      · -- With two colons or more the host of `SplitHostPort` has a colon.
        have hpos := count_pos_iff.mpr hb
        refine .inr ⟨by omega, ?_⟩
        split_ifs at h
        · cases hn : toIntegral16 after with
          | none => rw [hn] at h; simp at h
          | some n =>
            rw [hn] at h
            rw [← (Prod.mk.inj (Prod.mk.inj h).2).2]
            exact hcolon hb
        · rw [← (Prod.mk.inj (Prod.mk.inj h).2).2]
          exact hcolon ho
      · obtain ⟨rfl, rfl⟩ : before = first ∧ after = portStr := by
          have hp := takeWhile_colon hb after
          rw [← hl.1, (takeWhile_colon hf portStr).1, (takeWhile_colon hf portStr).2] at hp
          exact ⟨hp.1.symm, hp.2.symm⟩
        rw [if_pos (.inr (.inr hb))] at h
        cases hn : toIntegral16 after with
        | none => rw [hn] at h; simp at h
        | some n =>
          rw [hn] at h
          obtain ⟨hv, he⟩ := Prod.mk.inj h
          obtain ⟨rfl, rfl⟩ := Prod.mk.inj he
          obtain ⟨hlt, hu⟩ := toIntegral16_eq_some hn
          refine .inl ⟨by rw [count_eq_zero_of_not_mem hl.2], rfl, ?_⟩
          rw [seedPort_of_lt hu hlt, if_neg (of_decide_eq_true hv)]
          rfl
  · have hl := lastColon_spec s
    have hno : lastColon s = none := by
      cases hs : lastColon s with
      | none => rfl
      | some p =>
        rw [hs] at hl
        exact absurd (by rw [hl.1]; simp) ho
    rw [splitHostPort, hno] at h
    obtain ⟨rfl, rfl⟩ := Prod.mk.inj (Prod.mk.inj h).2
    rw [seedHostPort_bare ho hport, count_eq_zero_of_not_mem ho]
    exact .inl ⟨zero_le _, rfl, rfl⟩

section Faithful
variable {Addr : Type} {lookupIntern : List Char → List Addr} {defaultPort : ℕ} {s : List Char}
  (hport : 0 < defaultPort ∧ defaultPort < 2 ^ 16)

theorem seedAction_of_lookable {lookup : List Char → List Addr} {host : List Char} {port : ℕ}
    (h : lookup host ≠ []) : seedAction lookup host port =
      .pushAddresses ((lookup host).map fun netAddr => (netAddr, port)) := if_pos h

include hport in
/-- Where the two ways to split an entry lead to the same addresses. -/
theorem agrees_iff {port : Option ℕ} {host : List Char} (h : splitHostPort s = (true, port, host))
    (hlook : Lookable host) :
    (∀ (Addr : Type) (lookupIntern : List Char → List Addr), lookupHost lookupIntern host ≠ [] →
      seedEntry lookupIntern defaultPort s = .pushAddresses
        ((lookupHost lookupIntern host).map fun netAddr => (netAddr, port.getD defaultPort))) ↔
    s.count ':' ≤ 1 ∧ isBracketed (stripBrackets (s.takeWhile (· != ':'))) = false := by
  rw [← seedHostPort_fst defaultPort, ← eq_stripBrackets]
  have hcolon := colon_not_mem_host defaultPort s
  constructor
  · intro ha
    -- A host that is found as itself tells the hosts apart.
    have hl (t : List Char) (ht : Lookable t) :
        lookupHost (fun host => [host]) t = [stripBrackets t] := lookupHost_eq _ ht
    have he := ha (List Char) (fun host => [host]) (by rw [hl host hlook]; exact cons_ne_nil _ _)
    have hne : lookupHost (fun host => [host]) (seedHostPort defaultPort s).1 ≠ [] := by
      intro hn
      rw [seedEntry, seedAction, if_neg (not_not.mpr hn)] at he
      exact nomatch he
    rw [seedEntry, seedAction_of_lookable hne, hl _ (lookable_of_ne_nil hne), hl host hlook] at he
    simp only [map_cons, map_nil, SeedAction.pushAddresses.injEq, cons.injEq, Prod.mk.injEq] at he
    rcases splitHostPort_cases hport h with ⟨hc, hh, -⟩ | ⟨-, hm⟩
    · refine ⟨hc, ?_⟩
      rw [← hh, ← he.1.1, hh]
    · have hs := (mem_stripBrackets (by decide)).mpr hm
      rw [← he.1.1] at hs
      exact absurd ((mem_stripBrackets (by decide)).mp hs) hcolon
  · rintro ⟨hc, hb⟩ Addr lookupIntern hne
    rcases splitHostPort_cases hport h with ⟨-, rfl, hp⟩ | ⟨hgt, -⟩
    · have hlook' : Lookable (seedHostPort defaultPort s).1 := by
        refine ⟨fun hn => hlook.1 (by rw [hn]; rfl), fun hm => hlook.2 ?_⟩
        exact (mem_stripBrackets (by decide)).mpr hm
      have hl : lookupHost lookupIntern (seedHostPort defaultPort s).1 =
          lookupHost lookupIntern (stripBrackets (seedHostPort defaultPort s).1) := by
        rw [lookupHost_eq _ hlook', lookupHost_eq _ hlook, ← hb]
      rw [seedEntry, seedAction_of_lookable (hl ▸ hne), hl, hp]
    · omega

include hport in
/-- Where a port text leads to the default port or to its own number. -/
theorem plainPort_iff (portStr : List Char) :
    (seedPort defaultPort portStr = defaultPort ∨
      (seedPort defaultPort portStr : ℤ) = startingNumber portStr) ↔
        PlainPort defaultPort portStr := by
  have ha := atoi_eq portStr
  rw [seedPort, PlainPort]
  generalize startingNumber portStr = n at *
  split_ifs at ha <;> split_ifs <;> omega

include hport in
theorem faithfulAction_iff : (∀ (Addr : Type) (lookupIntern : List Char → List Addr),
    FaithfulAction lookupIntern defaultPort s (seedEntry lookupIntern defaultPort s)) ↔
      PlainSeed defaultPort s := by
  constructor
  · intro h
    refine ⟨fun hv hlook => ?_, fun host portStr hs hh hlook => ?_⟩
    · have hp : splitHostPort s = (true, (splitHostPort s).2.1, (splitHostPort s).2.2) := by
        rw [← hv]
      exact (agrees_iff hport hp hlook).mp fun Addr lookupIntern =>
        (h Addr lookupIntern).agrees _ _ hp
    · by_cases hd : ∀ n, toIntegral16 portStr = some n → n = 0
      · rw [← plainPort_iff hport]
        have hl := lookupHost_eq (fun host => [host]) hlook
        have he : seedEntry (fun host => [host]) defaultPort s =
            .pushAddresses [(stripBrackets host, seedPort defaultPort portStr)] := by
          rw [seedEntry, hs, seedHostPort_colon hh, seedAction_of_lookable, hl]
          · rfl
          · rw [hl]
            exact cons_ne_nil _ _
        exact (h _ fun host => [host]).noWrap host portStr hs hh hd _ he _ mem_cons_self
      · push Not at hd
        obtain ⟨n, hn, -⟩ := hd
        obtain ⟨hlt, hu⟩ := toIntegral16_eq_some hn
        have ha := atoi_eq portStr
        left
        split_ifs at ha <;> omega
  · intro h Addr lookupIntern
    refine ⟨fun port host hs hne => ?_, fun host portStr hs hh _ addresses he netAddr hm => ?_⟩
    · have hlook := lookable_of_ne_nil hne
      exact (agrees_iff hport hs hlook).mpr (h.plain (by rw [hs]) (by rw [hs]; exact hlook)) Addr
        lookupIntern hne
    · rw [seedEntry, hs, seedHostPort_colon hh, seedAction] at he
      split_ifs at he with hne
      obtain rfl := SeedAction.pushAddresses.inj he
      obtain ⟨a, -, rfl⟩ := mem_map.mp hm
      exact (plainPort_iff hport portStr).mpr (h.fits host portStr hs hh (lookable_of_ne_nil hne))

end Faithful

/-- A response is dealt with faithfully exactly if all its entries are plain. -/
theorem faithfulSeed_iff {defaultPort : ℕ} (hport : 0 < defaultPort ∧ defaultPort < 2 ^ 16)
    {root : UniValue} {nodes : List UniValue} (hnodes : seedNodes root = some nodes) :
    FaithfulResponse defaultPort root nodes ↔ ∀ s ∈ seedTexts nodes, PlainSeed defaultPort s := by
  have hr (Addr : Type) (lookupIntern : List Char → List Addr) :
      parseHTTPSeedResponse lookupIntern defaultPort (some root) =
        some ((seedTexts nodes).map (seedEntry lookupIntern defaultPort)) := by
    simp [parseHTTPSeedResponse, hnodes]
  simp only [FaithfulResponse, hr, Option.some.injEq, exists_eq_left', forall₂_map_right_iff,
    forall₂_same]
  refine ⟨fun h s hs => (faithfulAction_iff hport).mp fun Addr lookupIntern =>
    h Addr lookupIntern s hs, fun h Addr lookupIntern s hs =>
    (faithfulAction_iff hport).mpr (h s hs) Addr lookupIntern⟩

/-- Two entries in the second format, one of them with brackets and a port. -/
def seedResponse : UniValue := .obj [("nodes".toList,
  .arr [.str "[1.2.3.4]:80".toList, .null, .obj [("address".toList, .str "a.onion".toList)]])]

theorem faithfulSeed_iff_nodes : ∃ nodes, seedNodes seedResponse = some nodes ∧
    seedTexts nodes = ["[1.2.3.4]:80".toList, "a.onion".toList] ∧
    FaithfulResponse 9333 seedResponse nodes := by
  refine ⟨_, rfl, by decide, (faithfulSeed_iff (by decide) rfl).mpr ?_⟩
  have hs : seedTexts [.str "[1.2.3.4]:80".toList, .null,
      .obj [("address".toList, .str "a.onion".toList)]] =
      ["[1.2.3.4]:80".toList, "a.onion".toList] := by decide
  intro s hm
  rw [hs] at hm
  rcases mem_cons.mp hm with rfl | hm
  · refine ⟨fun _ _ => by decide, fun host portStr he hh _ => .inl ?_⟩
    have hp := (takeWhile_colon hh portStr).2
    rw [← he] at hp
    rw [← hp]
    decide
  · obtain rfl := mem_singleton.mp hm
    refine ⟨fun _ _ => by decide, fun host portStr he _ _ => absurd ?_ (show
      ':' ∉ "a.onion".toList by decide)⟩
    rw [he]
    simp

/-- A bracketed address is cut at its first colon, and a port beyond sixteen bits wraps around. -/
theorem seed_entries_misread :
    splitHostPort "[::1]:8333".toList = (true, some 8333, "::1".toList) ∧
      parseHTTPSeedResponse (fun host => if host = "::1".toList then [1] else []) 9333
        (some (.arr [.str "[::1]:8333".toList])) = some [.addAddrFetch "[:9333".toList] ∧
      parseHTTPSeedResponse (fun host => if host = "1.2.3.4".toList then [1] else []) 9333
        (some (.arr [.str "1.2.3.4:65537".toList])) = some [.pushAddresses [(1, 1)]] := by
  decide

end DripCore

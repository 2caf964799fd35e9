import Mathlib.Algebra.Order.Ring.Nat
import Mathlib.Data.List.TakeWhile
import Mccl.Framework.Sorting
import Mccl.Framework.Splitting

/-! # Endpoints of Ranks

    What a rank advertises and what its peers make of it, in the constructor of
    `PeerMesh` (`backend/PeerMesh.cpp`): addresses joined by commas, a colon and the
    port. The peer splits the string again, keeps the addresses of its own subnets that
    `MCCL_IFACE_PRIORITY` admits, and tries them by priority.

    * `prefix_priority_eq`: the list is what stands between the commas of the
      environment variable, without the empty items.
    * `parse_endpoint_endpoint`: the string is read back.
    * `endpoint_round_trip`: the addresses are read back, those are kept that share
      their first three octets with an advertised address and are admitted, and they
      are tried in the order of their first prefixes.
    * `many_prefixes_misorder`: the order is that of an `int`, so with more than 2^31
      prefixes it is not that of the positions. -/

namespace Mccl.Endpoints

open Splitting

/-- `std::string`. -/
abbrev Str := List Char

/-! ## The Priority List -/

/-- From the value of `MCCL_IFACE_PRIORITY`. -/
def prefix_priority (env : Option Str) : List Str :=
  match env with
  | none => []
  | some s => if s = [] then [] else splitLoop false ',' s s.length 0

/-- `ip.rfind(p, 0) == 0` for some `p` of the list. -/
def inPriority (pri : List Str) (ip : Str) : Bool := pri.any (·.isPrefixOf ip)

def score (pri : List Str) (ip : Str) : Int32 :=
  match pri.findIdx? (·.isPrefixOf ip) with
  | some i => Int32.ofNat i
  | none => Int32.ofNat pri.length

/-! ## Subnets -/

/-- The loop of `subnet24`, with the characters from `i` on. -/
def subnet24Loop (ip : Str) : Str → Nat → Nat → Str
  | [], _, _ => ip
  | c :: rest, i, dots =>
    if c = '.' then
      if dots + 1 = 3 then substr ip 0 i else subnet24Loop ip rest (i + 1) (dots + 1)
    else subnet24Loop ip rest (i + 1) dots

def subnet24 (ip : Str) : Str := subnet24Loop ip ip 0 0

/-! ## Endpoints -/

/-- The local addresses that are advertised (without any, the constructor raises). -/
def advertised (pri : List Str) (ips_all : List Str) : List Str :=
  ips_all.filter fun ip => pri.isEmpty || inPriority pri ip

def decimal (n : Nat) : Str := Nat.toDigits 10 n

def endpoint (ips : List Str) (port : Nat) : Str := [','].intercalate ips ++ ':' :: decimal port

def isspace (c : Char) : Bool := c = ' ' || (9 ≤ c.toNat && c.toNat ≤ 13)

def atoi (s : Str) : Int :=
  match s.dropWhile isspace with
  | '-' :: rest => -digits rest
  | '+' :: rest => digits rest
  | rest => digits rest
where
  digits (s : Str) : Int := Nat.ofDigitChars 10 (s.takeWhile Char.isDigit) 0

/-- The candidates and the port. -/
def parse_endpoint (s : Str) : Except String (List Str × Int) :=
  match rfind s ':' with
  | none => .error "PeerMesh: bad endpoint"
  | some colon => .ok (splitLoop true ',' s colon 0, atoi (s.drop (colon + 1)))

def reachable (pri my_subnets cands : List Str) : List Str :=
  cands.filter fun ip =>
    my_subnets.any (subnet24 ip == ·) && (pri.isEmpty || inPriority pri ip)

/-- What is tried for peer `p`, before it is sorted. -/
def peer_candidates (pri my_subnets : List Str) (p : Nat) (s : Str) : Except String (List Str × Int) := do
  let (cands, peer_port) ← parse_endpoint s
  let reachable := reachable pri my_subnets cands
  if reachable.isEmpty then
    throw ("PeerMesh: no MCCL_IFACE_PRIORITY-matching subnet shared with peer " ++ toString p ++
      "; refusing to fall back to a non-priority interface")
  return (reachable, peer_port)

/-- What `std::sort` may leave. -/
def ConnectOrder (pri reachable order : List Str) : Prop :=
  Sorting.Sorted (fun a b => !decide (score pri b < score pri a)) reachable order

/-! ## Addresses -/

structure IPv4 where
  a : UInt8
  b : UInt8
  c : UInt8
  d : UInt8
  deriving DecidableEq, Repr

namespace IPv4

/-- The first three octets. -/
def network (ip : IPv4) : UInt8 × UInt8 × UInt8 := (ip.a, ip.b, ip.c)

def networkText (ip : IPv4) : Str :=
  ['.'].intercalate [decimal ip.a.toNat, decimal ip.b.toNat, decimal ip.c.toNat]

/-- As `inet_ntop` writes it. -/
def text (ip : IPv4) : Str := ip.networkText ++ '.' :: decimal ip.d.toNat

end IPv4

/-- No list, or a prefix of it matches. -/
def Admitted (pri : List Str) (ip : IPv4) : Prop := pri = [] ∨ ∃ p ∈ pri, p <+: ip.text

instance (pri : List Str) (ip : IPv4) : Decidable (Admitted pri ip) :=
  inferInstanceAs (Decidable (_ ∨ _))

/-- The address is in a network of an advertised one. -/
def Reachable (pri : List Str) (ips_all : List IPv4) (ip : IPv4) : Prop :=
  (∃ mine ∈ ips_all, Admitted pri mine ∧ mine.network = ip.network) ∧ Admitted pri ip

instance (pri : List Str) (ips_all : List IPv4) (ip : IPv4) : Decidable (Reachable pri ips_all ip) :=
  inferInstanceAs (Decidable (_ ∧ _))

/-! ## The List Read from the Environment -/

theorem prefix_priority_eq (env : Option Str) :
    prefix_priority env = ((env.getD []).splitOn ',').filter fun p => !p.isEmpty := by
  cases env with
  | none => rfl
  | some s =>
    unfold prefix_priority
    dsimp only
    split
    · rename_i hs
      rw [hs]
      rfl
    · have hsplit := splitLoop_eq [] s [] (nofun : false = true → [] ∉ s.splitOn ',')
      rwa [List.nil_append, List.append_nil, List.length_nil, Nat.zero_add] at hsplit

/-! ## Text -/

section Text

variable {c : Char}

theorem notMem_decimal (hc : c.isDigit = false) (n : Nat) : c ∉ decimal n := by
  intro h
  have hdigit := Nat.isDigit_of_mem_toDigits (by omega) (by omega) h
  rw [hc] at hdigit
  cases hdigit

theorem decimal_injective {m n : Nat} (h : decimal m = decimal n) : m = n := by
  have hread := congrArg (Nat.ofDigitChars 10 · 0) h
  simpa only [decimal, Nat.ofDigitChars_ten_toDigits] using hread

theorem networkText_append (ip : IPv4) (rest : Str) :
    ip.networkText ++ rest = decimal ip.a.toNat ++ '.' :: (decimal ip.b.toNat ++ '.' :: (decimal ip.c.toNat ++ rest)) := by
  simp [IPv4.networkText, List.intercalate]

theorem text_ne_nil (ip : IPv4) : ip.text ≠ [] := by simp [IPv4.text]

theorem notMem_text (hc : c.isDigit = false) (hdot : c ≠ '.') (ip : IPv4) : c ∉ ip.text := by
  have hdigits := notMem_decimal hc
  simp [IPv4.text, networkText_append, hdigits, hdot]

/-- Characters that are not dots are passed over. -/
theorem subnet24Loop_skip (ip : Str) {p : Str} (hp : '.' ∉ p) (rest : Str) (i dots : Nat) :
    subnet24Loop ip (p ++ rest) i dots = subnet24Loop ip rest (i + p.length) dots := by
  induction p generalizing i with
  | nil => rfl
  | cons c p ih =>
    have hc : c ≠ '.' := fun h => hp (h ▸ List.mem_cons_self)
    rw [List.cons_append, subnet24Loop, if_neg hc, ih fun h => hp (List.mem_cons_of_mem c h), List.length_cons,
      Nat.add_right_comm, Nat.add_assoc]

theorem subnet24_text (ip : IPv4) : subnet24 ip.text = ip.networkText := by
  have hdot : ∀ n, '.' ∉ decimal n := notMem_decimal rfl
  have hlen : ip.networkText.length =
      (decimal ip.a.toNat).length + 1 + (decimal ip.b.toNat).length + 1 + (decimal ip.c.toNat).length := by
    have h := congrArg List.length (networkText_append ip [])
    simp only [List.append_nil, List.length_append, List.length_cons] at h
    omega
  have hloop : subnet24Loop ip.text ip.text 0 0 = substr ip.text 0 ip.networkText.length := by
    nth_rw 2 [IPv4.text]
    rw [networkText_append, subnet24Loop_skip _ (hdot _), subnet24Loop, if_pos rfl, if_neg (by decide),
      subnet24Loop_skip _ (hdot _), subnet24Loop, if_pos rfl, if_neg (by decide), subnet24Loop_skip _ (hdot _),
      subnet24Loop, if_pos rfl, if_pos rfl, hlen, Nat.zero_add]
  rw [subnet24, hloop, substr, List.drop_zero, IPv4.text, List.take_left]

theorem networkText_inj {ip ip' : IPv4} : ip.networkText = ip'.networkText ↔ ip.network = ip'.network := by
  constructor
  · intro h
    have hdot : ∀ n, '.' ∉ decimal n := notMem_decimal rfl
    have hparts := congrArg (List.splitOn '.') h
    rw [IPv4.networkText, IPv4.networkText, List.splitOn_intercalate '.' (by simp [hdot]) (by simp),
      List.splitOn_intercalate '.' (by simp [hdot]) (by simp)] at hparts
    simp only [List.cons.injEq, and_true] at hparts
    obtain ⟨ha, hb, hc⟩ := hparts
    simp only [IPv4.network, UInt8.toNat_inj.mp (decimal_injective ha), UInt8.toNat_inj.mp (decimal_injective hb),
      UInt8.toNat_inj.mp (decimal_injective hc)]
  · intro h
    simp only [IPv4.network, Prod.mk.injEq] at h
    rw [IPv4.networkText, IPv4.networkText, h.1, h.2.1, h.2.2]

end Text

/-! ## Reading an Endpoint -/

theorem isspace_of_isDigit {c : Char} (hc : c.isDigit = true) : isspace c = false := by
  have hge : 48 ≤ c.toNat := by
    simp only [Char.isDigit, Bool.and_eq_true, decide_eq_true_eq] at hc
    exact UInt32.le_iff_toNat_le.mp hc.1
  have hne : c ≠ ' ' := by
    rintro rfl
    cases hc
  simp only [isspace, hne, decide_false, Bool.false_or, Bool.and_eq_false_iff, decide_eq_false_iff_not]
  omega

theorem atoi_decimal (n : Nat) : atoi (decimal n) = n := by
  have hdigit : ∀ c ∈ decimal n, c.isDigit = true := fun c => Nat.isDigit_of_mem_toDigits (by omega) (by omega)
  have hdigits : atoi.digits (decimal n) = n := by
    rw [atoi.digits, List.takeWhile_eq_self_iff.mpr hdigit, decimal, Nat.ofDigitChars_ten_toDigits]
  cases hd : decimal n with
  | nil => exact absurd hd Nat.toDigits_ne_nil
  | cons c rest =>
    -- the first character is no sign
    have hc : c.isDigit = true := hdigit c (hd ▸ List.mem_cons_self)
    rw [hd] at hdigits
    rw [atoi, List.dropWhile_cons_of_neg (by simp [isspace_of_isDigit hc])]
    split
    · rename_i heq
      cases heq
      cases hc
    · rename_i heq
      cases heq
      cases hc
    · exact hdigits

/-- **The string is read back.** -/
theorem parse_endpoint_endpoint {ips : List Str} (hne : ips ≠ []) (hips : ∀ ip ∈ ips, ip ≠ [] ∧ ',' ∉ ip) (port : Nat) :
    parse_endpoint (endpoint ips port) = .ok (ips, port) := by
  have hsplit : ([','].intercalate ips).splitOn ',' = ips :=
    List.splitOn_intercalate ',' (fun ip h => (hips ip h).2) hne
  have hcands := splitLoop_eq [] ([','].intercalate ips) (':' :: decimal port)
    fun (_ : true = true) (h : [] ∈ ([','].intercalate ips).splitOn ',') => (hips [] (hsplit ▸ h)).1 rfl
  simp only [List.nil_append, List.length_nil, Nat.zero_add, hsplit, Bool.true_or, List.filter_true] at hcands
  have hport : ([','].intercalate ips ++ ':' :: decimal port).drop (([','].intercalate ips).length + 1) = decimal port := by
    rw [← List.drop_drop, List.drop_left]
    rfl
  rw [parse_endpoint, endpoint, rfind_append_cons (notMem_decimal rfl port)]
  dsimp only
  rw [hcands, hport, atoi_decimal]

theorem texts_ok (ips : List IPv4) : ∀ ip ∈ ips.map IPv4.text, ip ≠ [] ∧ ',' ∉ ip := by
  intro ip h
  obtain ⟨ip, -, rfl⟩ := List.mem_map.mp h
  exact ⟨text_ne_nil ip, notMem_text rfl (by decide) ip⟩

/-! ## Which Are Kept -/

section Kept

variable (pri : List Str)

theorem inPriority_text (ip : IPv4) : (pri.isEmpty || inPriority pri ip.text) = decide (Admitted pri ip) := by
  rw [Bool.eq_iff_iff, decide_eq_true_iff]
  simp [inPriority, Admitted, List.isPrefixOf_iff_prefix]

/-- **Which addresses are kept.** -/
theorem reachable_eq (ips_all ips : List IPv4) :
    reachable pri ((advertised pri (ips_all.map IPv4.text)).map subnet24) (ips.map IPv4.text) =
      (ips.filter fun ip => Reachable pri ips_all ip).map IPv4.text := by
  have hadvertised : (advertised pri (ips_all.map IPv4.text)).map subnet24 =
      (ips_all.filter fun ip => Admitted pri ip).map IPv4.networkText := by
    rw [advertised, List.filter_map, List.map_map]
    simp only [Function.comp_def, inPriority_text, subnet24_text]
  rw [reachable, hadvertised, List.filter_map]
  congr 1
  apply List.filter_congr
  intro ip _
  rw [Bool.eq_iff_iff, decide_eq_true_iff]
  simp only [Function.comp_apply, subnet24_text, inPriority_text, Bool.and_eq_true, List.any_eq_true, List.mem_map,
    List.mem_filter, decide_eq_true_iff, beq_iff_eq, Reachable]
  constructor
  · rintro ⟨⟨_, ⟨mine, ⟨hmem, hadmitted⟩, rfl⟩, heq⟩, hip⟩
    exact ⟨⟨mine, hmem, hadmitted, networkText_inj.mp heq.symm⟩, hip⟩
  · rintro ⟨⟨mine, hmem, hadmitted, heq⟩, hip⟩
    exact ⟨⟨_, ⟨mine, ⟨hmem, hadmitted⟩, rfl⟩, (networkText_inj.mpr heq).symm⟩, hip⟩

/-- The position of the first prefix that matches. -/
def firstMatch (ip : Str) : Nat := pri.findIdx (·.isPrefixOf ip)

theorem score_eq (ip : Str) : score pri ip = Int32.ofNat (firstMatch pri ip) := by
  rw [score, firstMatch, List.findIdx_eq_getD_findIdx?]
  cases pri.findIdx? (·.isPrefixOf ip) with
  | none => rfl
  | some i => rfl

variable {pri}

theorem firstMatch_lt {ip : IPv4} (h : Admitted pri ip) (hpri : pri.length ≤ 2 ^ 31) : firstMatch pri ip.text < 2 ^ 31 := by
  obtain rfl | ⟨p, hmem, hprefix⟩ := h
  · exact Nat.two_pow_pos 31
  · have hlt : firstMatch pri ip.text < pri.length :=
      List.findIdx_lt_length_of_exists ⟨p, hmem, List.isPrefixOf_iff_prefix.mpr hprefix⟩
    exact Nat.lt_of_lt_of_le hlt hpri

/-- **In which order they are tried.** -/
theorem connect_order_pairwise {ips : List IPv4} (hips : ∀ ip ∈ ips, Admitted pri ip) (hpri : pri.length ≤ 2 ^ 31)
    {order : List Str} (h : ConnectOrder pri (ips.map IPv4.text) order) :
    order.Pairwise fun a b => firstMatch pri a ≤ firstMatch pri b := by
  have hlt : ∀ ip ∈ order, firstMatch pri ip < 2 ^ 31 := by
    intro ip hmem
    obtain ⟨ip, hip, rfl⟩ := List.mem_map.mp (h.1.mem_iff.mp hmem)
    exact firstMatch_lt (hips ip hip) hpri
  apply h.2.imp_of_mem
  intro a b ha hb hle
  dsimp only at hle
  rw [score_eq, score_eq, Bool.not_eq_true', decide_eq_false_iff_not, Int32.ofNat_lt_iff_lt (hlt b hb) (hlt a ha)] at hle
  exact Nat.not_lt.mp hle

end Kept

/-- Two prefixes, and `n` others between them. -/
def distantPrefixes (n : Nat) : List Str := "10.".toList :: (List.replicate n "x".toList ++ ["11.".toList])

theorem prefix_priority_distant (n : Nat) :
    prefix_priority (some ([','].intercalate (distantPrefixes n))) = distantPrefixes n := by
  have hitems : ∀ item ∈ distantPrefixes n, item ∈ ["10.".toList, "x".toList, "11.".toList] := by
    intro item h
    simp only [distantPrefixes, List.mem_cons, List.mem_append, List.mem_replicate] at h ⊢
    grind
  have hcomma : ∀ item ∈ ["10.".toList, "x".toList, "11.".toList], ',' ∉ item ∧ (!item.isEmpty) = true := by decide
  rw [prefix_priority_eq, Option.getD_some,
    List.splitOn_intercalate ',' (fun item h => (hcomma item (hitems item h)).1) (List.cons_ne_nil _ _)]
  exact List.filter_eq_self.mpr fun item h => (hcomma item (hitems item h)).2

theorem firstMatch_distant (n : Nat) :
    firstMatch (distantPrefixes n) (IPv4.text ⟨10, 0, 0, 1⟩) = 0 ∧
    firstMatch (distantPrefixes n) (IPv4.text ⟨11, 0, 0, 1⟩) = n + 1 := by
  have hothers : (List.replicate n "x".toList).findIdx (·.isPrefixOf (IPv4.text ⟨11, 0, 0, 1⟩)) =
      (List.replicate n "x".toList).length := by
    apply List.findIdx_eq_length.mpr
    intro item h
    rw [List.eq_of_mem_replicate h]
    decide
  constructor
  · rfl
  · rw [firstMatch, distantPrefixes, List.findIdx_cons, List.findIdx_append, hothers, if_neg (Nat.lt_irrefl _),
      List.length_replicate]
    show 0 + n + 1 = n + 1
    rw [Nat.zero_add]

theorem admitted_distant (n : Nat) :
    ∀ ip ∈ ([⟨10, 0, 0, 1⟩, ⟨11, 0, 0, 1⟩] : List IPv4), Admitted (distantPrefixes n) ip := by
  intro ip h
  right
  simp only [List.mem_cons, List.not_mem_nil, or_false] at h
  obtain rfl | rfl := h
  · exact ⟨"10.".toList, List.mem_cons_self, by decide⟩
  · exact ⟨"11.".toList, List.mem_cons_of_mem _ (List.mem_append_right _ List.mem_cons_self), by decide⟩

theorem misorder_distant {n : Nat} (hn : Int32.ofNat (n + 1) ≤ 0) :
    ∃ order, ConnectOrder (distantPrefixes n) ([⟨10, 0, 0, 1⟩, ⟨11, 0, 0, 1⟩].map IPv4.text) order ∧
      ¬order.Pairwise fun a b => firstMatch (distantPrefixes n) a ≤ firstMatch (distantPrefixes n) b := by
  obtain ⟨hten, heleven⟩ := firstMatch_distant n
  refine ⟨[IPv4.text ⟨11, 0, 0, 1⟩, IPv4.text ⟨10, 0, 0, 1⟩], ⟨List.Perm.swap .., ?_⟩, ?_⟩
  · apply List.pairwise_pair.mpr
    dsimp only
    rw [score_eq, score_eq, hten, heleven, Bool.not_eq_true', decide_eq_false_iff_not]
    exact Int32.not_lt.mpr hn
  · rw [List.pairwise_pair, hten, heleven]
    exact Nat.not_succ_le_zero n

end Mccl.Endpoints

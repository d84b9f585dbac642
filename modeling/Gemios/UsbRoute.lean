import Mathlib.Data.Nat.Digits.Lemmas

/-!
# Route strings

The route string that `usb_hub_init_device` and `usb_hub_poll` of `src/src/usb/usb_hub.c` give to
a device behind a hub.  Both take the hub's own route string and put the port into its first zero
nibble.
-/

namespace Gemios.Usb

def nibble (route shift : Nat) : Nat := (route >>> shift) &&& 0xF

/-- The loop that looks for the first zero nibble, with this many turns left until `shift` is 20. -/
def freeShift (route : Nat) : Nat → Nat
  | 0 => 20
  | left + 1 =>
    let shift := 20 - 4 * (left + 1)
    if nibble route shift ≠ 0 then freeShift route left else shift

/-- The route string of the device on a port of a hub. -/
def childRoute (routeString port : Nat) : Nat :=
  let shift := freeShift routeString 5
  if shift < 20 then routeString ||| ((port &&& 0xF) <<< shift) else routeString

/-- The route string of the device at the end of a path of hub ports; `xhci_scan_ports` gives 0
    to the device on the root port. -/
def routeString (path : List Nat) : Nat := path.foldl childRoute 0

/-- The loop in `usb_hub_init_device` that computes the depth for SET_HUB_DEPTH. -/
def hubDepth (r : Nat) : Nat := if r = 0 then 0 else hubDepth (r >>> 4) + 1
termination_by r
decreasing_by
  rw [Nat.shiftRight_eq_div_pow]
  exact Nat.div_lt_self (Nat.pos_of_ne_zero ‹_›) (by decide)

/-- A route string that describes a path: its nibbles are the ports, 15 for those above 15, and
    there are as many of them as the path has hubs. -/
structure Describes (route : Nat) (path : List Nat) : Prop where
  nibbles : ∀ k, nibble route (4 * k) = (path[k]?.map (min · 15)).getD 0
  count : ((List.range 8).countP fun k => nibble route (4 * k) ≠ 0) = path.length
  depth : hubDepth route = path.length

/-- No other path of ports up to 15 has this route string. -/
def Unique (path : List Nat) : Prop :=
  (∀ p ∈ path, p ≤ 15) → ∀ path' : List Nat, path'.length ≤ 5 →
    (∀ p ∈ path', 1 ≤ p ∧ p ≤ 15) → routeString path' = routeString path → path' = path

/-! ### Route strings as digits -/

def Nibbles (l : List Nat) : Prop := ∀ d ∈ l, d ≠ 0 ∧ d < 16

theorem Nibbles.digits {l : List Nat} (h : Nibbles l) : Nat.digits 16 (Nat.ofDigits 16 l) = l :=
  Nat.digits_ofDigits 16 (by decide) l (fun d hd => (h d hd).2)
    fun hne => (h _ (List.getLast_mem hne)).1

theorem nibble_eq (route k : Nat) : nibble route (4 * k) = route / 16 ^ k % 16 := by
  rw [nibble, Nat.shiftRight_eq_div_pow, Nat.pow_mul]
  exact Nat.and_two_pow_sub_one_eq_mod _ 4

theorem Nibbles.nibble {l : List Nat} (h : Nibbles l) (k : Nat) :
    nibble (Nat.ofDigits 16 l) (4 * k) = l[k]?.getD 0 := by
  rw [nibble_eq, ← Nat.getD_digits _ k (by decide), h.digits, List.getD_eq_getElem?_getD]

theorem hubDepth_eq (r : Nat) : hubDepth r = (Nat.digits 16 r).length := by
  induction r using hubDepth.induct with
  | case1 => simp [hubDepth]
  | case2 r hr ih =>
    rw [hubDepth, if_neg hr, ih, Nat.shiftRight_eq_div_pow,
      Nat.digits_def' (by decide) (Nat.pos_of_ne_zero hr), List.length_cons]

theorem Nibbles.freeShift {l : List Nat} (h : Nibbles l) {left : Nat} (hle : left ≤ 5)
    (hlen : 5 ≤ left + l.length) (hmax : l.length ≤ 5) :
    freeShift (Nat.ofDigits 16 l) left = 4 * l.length := by
  induction left with
  | zero =>
    rw [Usb.freeShift]
    omega
  | succ left ih =>
    have hshift : 20 - 4 * (left + 1) = 4 * (4 - left) := by omega
    simp only [Usb.freeShift, hshift, h.nibble]
    by_cases hlast : 4 - left = l.length
    · rw [hlast, List.getElem?_eq_none (Nat.le_refl _)]
      simp
    · have hlt : 4 - left < l.length := by omega
      rw [List.getElem?_eq_getElem hlt, if_pos]
      · exact ih (by omega) (by omega)
      · exact (h _ (List.getElem_mem hlt)).1

/-- The digits that a path leaves in the route string: a multiple of 16 leaves none. -/
def digitsOf (path : List Nat) : List Nat := (path.map (· % 16)).filter (· ≠ 0)

theorem digitsOf_nibbles (path : List Nat) : Nibbles (digitsOf path) := by
  intro d hd
  simp only [digitsOf, List.mem_filter, List.mem_map, decide_eq_true_eq] at hd
  obtain ⟨⟨p, -, rfl⟩, hne⟩ := hd
  exact ⟨hne, Nat.mod_lt _ (by decide)⟩

theorem Nibbles.childRoute {l : List Nat} (h : Nibbles l) (hlen : l.length < 5) (port : Nat) :
    childRoute (Nat.ofDigits 16 l) port = Nat.ofDigits 16 (l ++ digitsOf [port]) := by
  have hshift := h.freeShift (Nat.le_refl 5) (Nat.le_add_right _ _) (Nat.le_of_lt hlen)
  have hand : port &&& 0xF = port % 16 := Nat.and_two_pow_sub_one_eq_mod _ 4
  have hlt : Nat.ofDigits 16 l < 2 ^ (4 * l.length) := by
    rw [Nat.pow_mul]
    exact Nat.ofDigits_lt_base_pow_length (by decide) fun d hd => (h d hd).2
  simp only [Usb.childRoute, hshift, hand]
  rw [if_pos (by omega), Nat.or_comm, ← Nat.shiftLeft_add_eq_or_of_lt hlt, Nat.shiftLeft_eq,
    Nat.pow_mul, Nat.ofDigits_append, Nat.add_comm]
  by_cases hzero : port % 16 = 0
  · simp [digitsOf, hzero]
  · simp [digitsOf, hzero, Nat.mul_comm]

theorem foldl_childRoute {l : List Nat} (h : Nibbles l) {path : List Nat}
    (hlen : l.length + path.length ≤ 5) :
    path.foldl childRoute (Nat.ofDigits 16 l) = Nat.ofDigits 16 (l ++ digitsOf path) := by
  induction path generalizing l with
  | nil => simp [digitsOf]
  | cons p path ih =>
    rw [List.length_cons] at hlen
    have hstep : digitsOf (p :: path) = digitsOf [p] ++ digitsOf path := by
      rw [digitsOf, digitsOf, digitsOf, ← List.filter_append]
      rfl
    have hone : (digitsOf [p]).length ≤ 1 := List.length_filter_le _ _
    rw [List.foldl_cons, h.childRoute (by omega), ih, hstep, List.append_assoc]
    · intro d hd
      rcases List.mem_append.mp hd with hd | hd
      · exact h d hd
      · exact digitsOf_nibbles _ d hd
    · rw [List.length_append]
      omega

theorem routeString_eq {path : List Nat} (hlen : path.length ≤ 5) :
    routeString path = Nat.ofDigits 16 (digitsOf path) := by
  have hnil : Nibbles [] := by simp [Nibbles]
  have h := foldl_childRoute hnil (show [].length + path.length ≤ 5 by simpa using hlen)
  rw [Nat.ofDigits_nil, List.nil_append] at h
  exact h

theorem digitsOf_eq_map {path : List Nat} (hlen : (digitsOf path).length = path.length) :
    digitsOf path = path.map (· % 16) := by
  apply List.filter_sublist.eq_of_length
  rw [List.length_map]
  exact hlen

theorem digitsOf_of_ne_zero {path : List Nat} (hne : ∀ p ∈ path, p % 16 ≠ 0) :
    digitsOf path = path.map (· % 16) := by
  apply List.filter_eq_self.mpr
  simpa using hne

theorem mod_eq_min_iff (p : Nat) : p % 16 = min p 15 ↔ p ≤ 15 ∨ p % 16 = 15 := by omega

theorem countP_range {n : Nat} (hn : n ≤ 5) : (List.range 8).countP (fun k => k < n) = n := by
  have hall : ∀ n ≤ 5, (List.range 8).countP (fun k => k < n) = n := by decide
  exact hall n hn

theorem describes_of_ports {path : List Nat} (hlen : path.length ≤ 5)
    (hports : ∀ p ∈ path, 1 ≤ p) (hfit : ∀ p ∈ path, p ≤ 15 ∨ p % 16 = 15) :
    Describes (routeString path) path := by
  have hmin : ∀ p ∈ path, p % 16 = min p 15 := fun p hp => (mod_eq_min_iff p).mpr (hfit p hp)
  have hdigits : digitsOf path = path.map (· % 16) := by
    apply digitsOf_of_ne_zero
    intro p hp
    have := hports p hp
    rw [hmin p hp]
    omega
  have hnib := digitsOf_nibbles path
  have hnibbles : ∀ k, nibble (routeString path) (4 * k) = (path[k]?.map (min · 15)).getD 0 := by
    intro k
    rw [routeString_eq hlen, hnib.nibble, hdigits, List.getElem?_map]
    cases hk : path[k]? with
    | none => rfl
    | some p => exact hmin p (List.mem_of_getElem? hk)
  refine ⟨hnibbles, ?_, ?_⟩
  · rw [← countP_range hlen]
    apply List.countP_congr
    intro k _
    simp only [hnibbles, decide_eq_true_eq]
    by_cases hk : k < path.length
    · have := hports _ (List.getElem_mem hk)
      simp only [List.getElem?_eq_getElem hk, Option.map_some, Option.getD_some, hk, iff_true]
      omega
    · simp [hk]
  · rw [hubDepth_eq, routeString_eq hlen, hnib.digits, hdigits, List.length_map]

theorem fit_of_describes {path : List Nat} (hlen : path.length ≤ 5)
    (h : Describes (routeString path) path) : ∀ p ∈ path, p ≤ 15 ∨ p % 16 = 15 := by
  have hnib := digitsOf_nibbles path
  -- the depth says that no port was dropped
  have hdepth := h.depth
  rw [hubDepth_eq, routeString_eq hlen, hnib.digits] at hdepth
  have hdigits := digitsOf_eq_map hdepth
  intro p hp
  obtain ⟨k, hk, rfl⟩ := List.getElem_of_mem hp
  have hnibble := h.nibbles k
  rw [routeString_eq hlen, hnib.nibble, hdigits, List.getElem?_map, List.getElem?_eq_getElem hk]
    at hnibble
  exact (mod_eq_min_iff _).mp hnibble

theorem unique {path : List Nat} (hlen : path.length ≤ 5) (hports : ∀ p ∈ path, 1 ≤ p) :
    Unique path := by
  -- on ports up to 15 the digits are the ports
  have hself : ∀ path : List Nat, (∀ p ∈ path, 1 ≤ p ∧ p ≤ 15) → digitsOf path = path := by
    intro path hpath
    have hmod : ∀ p ∈ path, p % 16 = p := fun p hp => Nat.mod_eq_of_lt (by have := hpath p hp; omega)
    rw [digitsOf_of_ne_zero]
    · exact (List.map_congr_left hmod).trans (List.map_id _)
    · intro p hp
      have := hpath p hp
      rw [hmod p hp]
      omega
  intro hle path' hlen' hpath' heq
  rw [routeString_eq hlen', routeString_eq hlen] at heq
  have hdigits := congrArg (Nat.digits 16) heq
  rw [(digitsOf_nibbles path').digits, (digitsOf_nibbles path).digits, hself path' hpath',
    hself path fun p hp => ⟨hports p hp, hle p hp⟩] at hdigits
  exact hdigits

/-- **Route strings.**  The route string of a path describes it and is its own exactly if each of
    the ports is at most 15, or 15 more than a multiple of 16. -/
theorem route_describes_iff {path : List Nat} (hlen : path.length ≤ 5)
    (hports : ∀ p ∈ path, 1 ≤ p ∧ p ≤ 255) :
    Describes (routeString path) path ∧ Unique path ↔ ∀ p ∈ path, p ≤ 15 ∨ p % 16 = 15 := by
  have hpos : ∀ p ∈ path, 1 ≤ p := fun p hp => (hports p hp).1
  constructor
  · intro h
    exact fit_of_describes hlen h.1
  · intro h
    exact ⟨describes_of_ports hlen hpos h, unique hlen hpos⟩

theorem route_describes_iff_three :
    Describes (routeString [3, 15, 31]) [3, 15, 31] ∧ Unique [3, 15, 31] ↔
      ∀ p ∈ [3, 15, 31], p ≤ 15 ∨ p % 16 = 15 :=
  route_describes_iff (by decide) (by decide)

/-- Behind port 16 the nibble is 0, so a device there has the route string of the hub itself. -/
theorem port_sixteen : ¬Describes (routeString [16]) [16] ∧ routeString [16] = routeString [] := by
  refine ⟨fun h => ?_, by decide⟩
  have hnibble := h.nibbles 0
  revert hnibble
  decide

end Gemios.Usb

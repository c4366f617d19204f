import Mathlib.Data.Finset.Card
import SimpleKernel.Model.Device

/-! The index of the driver registry names, for every string, the first driver that lists it.
`FindDriver` asks, for each string of a node, this driver and no other one. -/

namespace SimpleKernel.Device

open List

/-! ## The index -/

namespace DriverRegistry

variable {r r' : DriverRegistry} {node : DeviceNode} {entry : DriverEntry} {s : List UInt8} {idx : ℕ}

theorem insert_eq (r : DriverRegistry) (key : List UInt8) (idx : ℕ) :
    (r.insert key idx).drivers = r.drivers ∧
    ∀ s, (r.insert key idx).compatMap s = (r.compatMap s).or (if s = key then some idx else none) := by
  unfold insert
  cases hkey : r.compatMap key with
  | some _ | none =>
    refine ⟨rfl, fun s => ?_⟩
    by_cases hs : s = key
    · simp [hs, hkey]
    · simp [hs]

theorem insertAll_eq {table : List (List UInt8)} (h : insertAll idx table r = (.ok (), r')) :
    r'.drivers = r.drivers ∧
    ∀ s, r'.compatMap s = (r.compatMap s).or (if s ∈ table then some idx else none) := by
  induction table generalizing r with
  | nil =>
    cases h
    simp
  | cons key rest ih =>
    rw [insertAll] at h
    split at h
    · cases h
    obtain ⟨hdrivers, hmap⟩ := ih h
    obtain ⟨hdrivers', hmap'⟩ := r.insert_eq key idx
    refine ⟨hdrivers.trans hdrivers', fun s => ?_⟩
    rw [hmap, hmap']
    cases r.compatMap s <;> by_cases hs : s = key <;> simp [hs]

def missing (r : DriverRegistry) (table : List (List UInt8)) : Finset (List UInt8) :=
  table.toFinset.filter fun s => r.compatMap s = none

/-- The list or the map is full, or there is room for the new strings. The loop looks for room before
each string, so the last one may fill the map. -/
def Fits (r : DriverRegistry) (entry : DriverEntry) : Prop :=
  maxDrivers ≤ r.drivers.length ∨ maxCompatEntries ≤ r.compatCount ∨
    r.compatCount + (r.missing entry.matchTable.dropLast).card < maxCompatEntries

theorem insert_missing (r : DriverRegistry) (key : List UInt8) (idx : ℕ) (table : List (List UInt8)) :
    (r.insert key idx).compatCount + ((r.insert key idx).missing table).card =
      r.compatCount + (r.missing (key :: table)).card := by
  unfold insert missing
  cases hkey : r.compatMap key with
  | some i => simp [Finset.filter_insert, hkey]
  | none =>
    have herase : table.toFinset.filter (fun s => Function.update r.compatMap key (some idx) s = none) =
        (table.toFinset.filter fun s => r.compatMap s = none).erase key := by
      ext s
      by_cases hs : s = key <;> simp [hs]
    rw [toFinset_cons, Finset.filter_insert, if_pos hkey,
      ← Finset.card_erase_add_one (Finset.mem_insert_self _ _), Finset.erase_insert_eq_erase, ← herase]
    simp only [Option.isSome_none, Bool.false_eq_true, if_false]
    omega

theorem insertAll_ok (idx : ℕ) {table : List (List UInt8)}
    (h : r.compatCount + (r.missing table.dropLast).card < maxCompatEntries) :
    ∃ r', insertAll idx table r = (.ok (), r') := by
  induction table generalizing r with
  | nil => exact ⟨r, rfl⟩
  | cons key rest ih =>
    rw [insertAll, if_neg (by omega)]
    cases rest with
    | nil => exact ⟨_, rfl⟩
    | cons key' rest =>
      apply ih
      rwa [insert_missing]

def Whole (r : DriverRegistry) (entry : DriverEntry) : Prop :=
  (r.register entry).1 = .ok () ∨ r.register entry = (.error .outOfMemory, r)

theorem Fits.register (h : r.Fits entry) :
    if maxDrivers ≤ r.drivers.length ∨ maxCompatEntries ≤ r.compatCount ∧ entry.matchTable ≠ [] then
      r.register entry = (.error .outOfMemory, r)
    else (r.register entry).1 = .ok () := by
  unfold DriverRegistry.register
  by_cases hfull : maxDrivers ≤ r.drivers.length
  · rw [if_pos (.inl hfull), if_pos hfull]
  simp only [hfull, false_or, if_false]
  rcases h.resolve_left hfull with hmap | hroom
  · cases entry.matchTable with
    | nil => simp [insertAll]
    | cons key rest => simp [hmap, insertAll]
  · obtain ⟨r', hall⟩ := insertAll_ok r.drivers.length hroom
    rw [if_neg (by omega), hall]

theorem Fits.whole (h : r.Fits entry) : r.Whole entry := by
  have hregister := h.register
  split_ifs at hregister
  · exact .inr hregister
  · exact .inl hregister

theorem register_cases (h : r.Whole entry) :
    r.register entry = (.error .outOfMemory, r) ∨
      ∃ r', insertAll r.drivers.length entry.matchTable r = (.ok (), r') ∧
        r.register entry = (.ok (), { r' with drivers := r'.drivers ++ [entry] }) := by
  refine h.symm.imp_right fun h => ?_
  unfold register at h ⊢
  split at h
  · cases h
  rename_i hfull
  rw [if_neg hfull]
  rcases hall : insertAll r.drivers.length entry.matchTable r with ⟨e | _, r'⟩
  · rw [hall] at h
    cases h
  · exact ⟨r', rfl, rfl⟩

def Indexed (r : DriverRegistry) : Prop :=
  ∀ s, r.compatMap s = r.drivers.findIdx? fun entry => s ∈ entry.matchTable

theorem indexed_of_reachable (h : registrySystem.ReachableBy Whole r) : r.Indexed := by
  refine h.invariant (P := Indexed) ?_ ?_
  · rintro _ rfl s
    rfl
  · intro r entry r' hr hwhole hstep
    cases hstep
    obtain hsame | ⟨r', hall, hok⟩ := register_cases hwhole
    · rw [hsame]
      exact hr
    · obtain ⟨hdrivers, hmap⟩ := insertAll_eq hall
      rw [hok]
      intro s
      change r'.compatMap s = _
      rw [hmap, hr s, hdrivers, findIdx?_append]
      simp [findIdx?_singleton]

theorem Indexed.exists_of_map (h : r.Indexed) (hs : r.compatMap s = some idx) :
    ∃ entry, r.drivers[idx]? = some entry ∧ s ∈ entry.matchTable := by
  rw [h, findIdx?_eq_some_iff_getElem] at hs
  obtain ⟨hlt, hmem, -⟩ := hs
  exact ⟨r.drivers[idx], List.getElem?_eq_getElem hlt, of_decide_eq_true hmem⟩

theorem map_of_findIn {l : List (ℕ × List UInt8)} (h : r.findIn node l = .driver idx) :
    ∃ p ∈ l, r.compatMap p.2 = some idx := by
  induction l with
  | nil => cases h
  | cons p rest ih =>
    have hrest : r.findIn node rest = .driver idx → ∃ q ∈ p :: rest, r.compatMap q.2 = some idx := by
      intro h
      obtain ⟨q, hq, hmap⟩ := ih h
      exact ⟨q, .tail _ hq, hmap⟩
    rw [findIn] at h
    split at h
    · cases h
    split at h
    · exact hrest h
    rename_i i hi
    split at h
    · cases h
    split at h
    · cases h
      exact ⟨p, .head _, hi⟩
    · exact hrest h

/-- As long as there is room for all strings of a table or for none, a `Register` succeeds or, where
the list or the map is full, has no effect, and `FindDriver` returns drivers that list a string of the node. -/
theorem registrations_clean (h : registrySystem.ReachableBy Fits r) :
    (∀ entry, r.Fits entry →
      if maxDrivers ≤ r.drivers.length ∨ maxCompatEntries ≤ r.compatCount ∧ entry.matchTable ≠ [] then
        r.register entry = (.error .outOfMemory, r)
      else (r.register entry).1 = .ok ()) ∧
    (∀ s idx, r.compatMap s = some idx → idx < r.drivers.length) ∧
    ∀ node idx, r.findDriver node = .driver idx → ∃ entry, r.drivers[idx]? = some entry ∧
      ∃ p ∈ node.strings 0, p.2 ∈ entry.matchTable := by
  have hindexed := indexed_of_reachable (h.mono fun _ _ => Fits.whole)
  refine ⟨fun entry => Fits.register, ?_, ?_⟩
  · intro s idx hs
    obtain ⟨entry, hentry, -⟩ := hindexed.exists_of_map hs
    exact (List.getElem?_eq_some_iff.mp hentry).1
  · intro node idx hfind
    obtain ⟨p, hp, hmap⟩ := map_of_findIn hfind
    obtain ⟨entry, hentry, hmem⟩ := hindexed.exists_of_map hmap
    exact ⟨entry, hentry, p, hp, hmem⟩

def bytesDriver (n : ℕ) (accepts : DeviceNode → Bool) : DriverEntry :=
  ⟨(range n).map fun i => [UInt8.ofNat (i + 1)], accepts⟩

instance (r : DriverRegistry) (entry : DriverEntry) : Decidable (r.Fits entry) :=
  inferInstanceAs (Decidable (_ ∨ _))

theorem registrations_clean_two : ∃ r : DriverRegistry, registrySystem.ReachableBy Fits r ∧
    r.drivers.length = 2 ∧ ∀ s idx, r.compatMap s = some idx → idx < r.drivers.length := by
  obtain ⟨r, hr, hlen⟩ := registrySystem.exists_of_run Fits
    [bytesDriver 1 fun _ => true, bytesDriver 2 fun _ => true] (fun r => r.drivers.length = 2) rfl
    (by decide +kernel)
  exact ⟨r, hr, hlen, (registrations_clean hr).2.1⟩

/-- A driver with 97 strings is refused, but its first 96 strings stay in the index, for a driver that
does not exist. -/
theorem failed_register_stays :
    (register {} (bytesDriver 97 fun _ => true)).1 = .error .outOfMemory ∧
    (register {} (bytesDriver 97 fun _ => true)).2.drivers.length = 0 ∧
    (register {} (bytesDriver 97 fun _ => true)).2.compatMap [1] = some 0 := by
  decide +kernel

end DriverRegistry

/-! ## The strings of a node -/

def encode (strings : List (List UInt8)) : List UInt8 := strings.flatMap (· ++ [0])

theorem encode_cons (s : List UInt8) (strings : List (List UInt8)) :
    encode (s :: strings) = s ++ 0 :: encode strings := by
  simp [encode]

namespace DeviceNode

variable {node : DeviceNode} {p s rest : List UInt8} {strings : List (List UInt8)}

theorem stringAt_eq (h : node.compatible = p ++ (s ++ 0 :: rest)) (hs : 0 ∉ s) :
    node.stringAt p.length = s := by
  rw [stringAt, h, drop_left, takeWhile_append_of_pos]
  · simp
  · intro b hb
    simpa using ne_of_mem_of_not_mem hb hs

theorem strings_encode (h : node.compatible = p ++ (encode strings ++ rest))
    (hlen : node.compatibleLen = p.length + (encode strings).length)
    (hzero : ∀ s ∈ strings, 0 ∉ s) :
    (node.strings p.length).map Prod.snd = strings ∧
      ∀ q ∈ node.strings p.length, q.1 + q.2.length < node.compatibleLen := by
  induction strings generalizing p with
  | nil =>
    have hle : node.compatibleLen ≤ p.length := Nat.le_of_eq hlen
    rw [DeviceNode.strings, if_pos hle]
    simp
  | cons s strings ih =>
    rw [encode_cons, length_append, length_cons] at hlen
    rw [encode_cons, append_assoc, cons_append] at h
    obtain ⟨hs, hzero⟩ := forall_mem_cons.mp hzero
    have hnext : p.length + s.length + 1 = (p ++ s ++ [0]).length := by simp [Nat.add_assoc]
    rw [DeviceNode.strings, if_neg (by omega), stringAt_eq h hs, hnext]
    obtain ⟨hmap, hread⟩ := ih (p := p ++ s ++ [0]) (by simpa using h) (by rw [← hnext]; omega) hzero
    exact ⟨by rw [map_cons, hmap], forall_mem_cons.mpr ⟨by dsimp only; omega, hread⟩⟩

end DeviceNode

/-! ## The drivers for a string -/

/-- A result that is a driver, or null. -/
def Found.of : Option ℕ → Found
  | none => .nullptr
  | some idx => .driver idx

theorem Found.of_inj {a b : Option ℕ} : Found.of a = Found.of b ↔ a = b := by
  cases a <;> cases b <;> simp [Found.of]

theorem findSome?_eq_iff {α β : Type*} {f g : α → Option β} (hfg : ∀ a b, f a = some b → g a = some b)
    (l : List α) : l.findSome? f = l.findSome? g ↔
      ∀ a rest, l.dropWhile (fun a => (g a).isNone) = a :: rest →
        f a ≠ none ∨ rest.findSome? f = g a := by
  induction l with
  | nil => simp
  | cons a l ih =>
    rw [findSome?_cons, findSome?_cons, dropWhile_cons]
    cases hg : g a with
    | none =>
      have hf : f a = none := by
        by_contra hne
        obtain ⟨b, hb⟩ := Option.ne_none_iff_exists'.mp hne
        cases hg.symm.trans (hfg a b hb)
      simpa [hf] using ih
    | some b =>
      cases hf : f a with
      | none => simp [hf, hg]
      | some b' =>
        have heq := (hfg a b' hf).symm.trans hg
        simp [hf, heq]

namespace DriverRegistry

variable {r : DriverRegistry} {node : DeviceNode} {strings : List (List UInt8)} {s : List UInt8}
  {idx : ℕ}

/-- The first driver that lists a string, if it accepts the node. -/
def pick (r : DriverRegistry) (node : DeviceNode) (s : List UInt8) : Option ℕ :=
  (r.drivers.findIdx? fun entry => s ∈ entry.matchTable).filter fun idx =>
    r.drivers[idx]?.any (·.accepts node)

/-- The first driver that lists a string and accepts the node. -/
def best (r : DriverRegistry) (node : DeviceNode) (s : List UInt8) : Option ℕ :=
  r.drivers.findIdx? fun entry => s ∈ entry.matchTable ∧ entry.accepts node

theorem best_of_pick (hpick : r.pick node s = some idx) : r.best node s = some idx := by
  obtain ⟨hmap, haccepts⟩ := Option.filter_eq_some_iff.mp hpick
  rw [findIdx?_eq_some_iff_getElem] at hmap
  obtain ⟨hlt, hmem, hfirst⟩ := hmap
  rw [List.getElem?_eq_getElem hlt, Option.any_some] at haccepts
  rw [best, findIdx?_eq_some_iff_getElem]
  refine ⟨hlt, by simpa [haccepts] using hmem, ?_⟩
  intro j hj
  have hnot : s ∉ r.drivers[j].matchTable := by simpa using hfirst j hj
  simp [hnot]

theorem Indexed.findIn_eq (h : r.Indexed) {l : List (ℕ × List UInt8)}
    (hread : ∀ p ∈ l, p.1 + p.2.length < node.compatible.length) :
    r.findIn node l = Found.of ((l.map Prod.snd).findSome? (r.pick node)) := by
  induction l with
  | nil => rfl
  | cons p rest ih =>
    obtain ⟨hp, hrest⟩ := forall_mem_cons.mp hread
    rw [findIn, if_neg (by omega), map_cons, findSome?_cons, ih hrest]
    cases hmap : r.compatMap p.2 with
    | none => simp [pick, ← h p.2, hmap]
    | some i =>
      obtain ⟨entry, hentry, -⟩ := h.exists_of_map hmap
      have hpick : r.pick node p.2 = if entry.accepts node then some i else none := by
        simp [pick, ← h p.2, hmap, hentry, Option.filter_some]
      rw [hpick]
      cases haccepts : entry.accepts node <;> simp [hentry, haccepts, Found.of]

/-- `FindDriver` finds the best driver exactly if, at the first string for which there is one, the
first driver that lists it accepts the node, or the strings behind it lead to the same driver. -/
theorem findDriver_best_iff
    (h : registrySystem.ReachableBy (fun r entry => (r.register entry).1 = .ok ()) r)
    {rest : List UInt8} (hcompatible : node.compatible = encode strings ++ rest)
    (hlen : node.compatibleLen = (encode strings).length) (hzero : ∀ s ∈ strings, 0 ∉ s) :
    r.findDriver node = Found.of (strings.findSome? (r.best node)) ↔
      ∀ s rest, strings.dropWhile (fun s => (r.best node s).isNone) = s :: rest →
        r.pick node s ≠ none ∨ rest.findSome? (r.pick node) = r.best node s := by
  have hindexed := indexed_of_reachable (h.mono fun _ _ => .inl)
  obtain ⟨hmap, hread⟩ := DeviceNode.strings_encode (p := []) hcompatible (by simpa using hlen) hzero
  rw [findDriver, hindexed.findIn_eq, Found.of_inj,
    ← findSome?_eq_iff fun _ _ => best_of_pick]
  · rw [← hmap]
    rfl
  · intro p hp
    have hlt := hread p hp
    rw [hcompatible, length_append]
    omega

/-- A node with the strings of one byte `2` and `1`. -/
def twoNode : DeviceNode := { compatible := [2, 0, 1, 0] ++ replicate 124 0, compatibleLen := 4 }

/-- Only the second driver accepts the node, and it is the only one that lists the string `2`. -/
theorem findDriver_best_iff_two :
    ∃ r : DriverRegistry, r.drivers.length = 2 ∧
      r.findDriver twoNode = Found.of ([[2], [1]].findSome? (r.best twoNode)) ∧
      r.best twoNode [2] = some 1 := by
  obtain ⟨r, hr, hlen, hpick, hbest⟩ := registrySystem.exists_of_run
    (fun r entry => (r.register entry).1 = .ok ())
    [bytesDriver 1 fun _ => false, bytesDriver 2 fun _ => true]
    (fun r => r.drivers.length = 2 ∧ r.pick twoNode [2] = some 1 ∧ r.best twoNode [2] = some 1) rfl
    (by decide +kernel)
  have hiff := @findDriver_best_iff r twoNode [[2], [1]] hr _ rfl rfl (by decide)
  refine ⟨r, hlen, hiff.mpr ?_, hbest⟩
  simp [hpick, hbest]

/-- Two drivers list the string, and only the second accepts the node. -/
theorem second_driver_missed : ∃ r : DriverRegistry,
    registrySystem.ReachableBy (fun r entry => (r.register entry).1 = .ok ()) r ∧
    r.findDriver twoNode = .nullptr ∧ r.best twoNode [1] = some 1 :=
  registrySystem.exists_of_run _ [bytesDriver 1 fun _ => false, bytesDriver 1 fun _ => true]
    (fun r => r.findDriver twoNode = .nullptr ∧ r.best twoNode [1] = some 1) rfl (by decide +kernel)

end DriverRegistry

end SimpleKernel.Device

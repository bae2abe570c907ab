import Aix413.Dmap.Reachable

namespace Aix413.Dmap

open Lib.BitRuns

namespace Vmdmap

variable {s : Vmdmap} {fperpage pref n f d i j : Nat}

/-- What no string of fragments goes over: a double word, or a byte in the older maps. -/
def unit : Version → Nat
  | .v3 => 8
  | .v4 => 64

/-- The fragments from `f` on are free, in one unit of the map and below its size. -/
structure Place (s : Vmdmap) (n f : Nat) : Prop where
  inside : f < s.mapsize ∧ f + n ≤ s.mapsize
  unit : f % unit s.lay.version + n ≤ unit s.lay.version
  free : s.AllBits Page.wmap f n false

/-- Next to the hint the leftmost string in the first double word with room passes the end of the
map. -/
def Misled (s : Vmdmap) (n pref : Nat) : Prop :=
  pref ≠ 0 ∧ ∃ d i, s.FirstNear pref n d ∧ s.Leftmost (pref / s.lay.dbperpage) d n i ∧
    s.mapsize < pref / s.lay.dbperpage * s.lay.dbperpage + (64 * d + i) + n

theorem Leftmost.unique {p : Nat} (h : s.Leftmost p d n i) (h' : s.Leftmost p d n j) : j = i := by
  rcases Nat.lt_trichotomy j i with hlt | heq | hgt
  · exact absurd h'.2.2.1 (h.2.2.2 j hlt)
  · exact heq
  · exact absurd h.2.2.1 (h'.2.2.2 i hgt)

theorem Place.room (h : Place s n f) :
    s.Room (f / s.lay.dbperpage) (f % s.lay.dbperpage / 64) n ∧
      s.everywhere (f / s.lay.dbperpage) (f % s.lay.dbperpage / 64) := by
  obtain ⟨hin, -, hmod, haddr⟩ := address s.lay f
  have hbit : 64 * (f % s.lay.dbperpage / 64) + f % s.lay.dbperpage % 64 = f % s.lay.dbperpage := by
    omega
  have hunit := h.unit
  refine ⟨⟨f % s.lay.dbperpage % 64, ?_, fun hv => ?_, ?_, ?_, ?_⟩, ?_⟩
  · rw [hmod]
    cases hv : s.lay.version with
    | v3 =>
      rw [hv] at hunit
      change f % 8 + n ≤ 8 at hunit
      omega
    | v4 =>
      rw [hv] at hunit
      exact hunit
  · rw [hv] at hunit
    change f % 8 + n ≤ 8 at hunit
    omega
  · rw [hbit]
    exact h.free
  · rw [hbit, haddr]
    exact h.inside.1
  · rw [hbit, haddr]
    exact h.inside.2
  · change 64 * (f % s.lay.dbperpage / 64) < s.lay.dbperpage
    omega

/-- `v_alloc` finds a place wherever there is one, unless the double words next to the hint
mislead it. -/
theorem vAlloc_complete_iff (h : Reaches fperpage s) (hn : n ≤ s.lay.clsize)
    (hpref : pref < s.mapsize) :
    (∀ s' e, s.vAlloc n pref = some (s', .error e) → ∀ f, ¬Place s n f) ↔
      (s.Misled n pref → ∀ f, ¬Place s n f) := by
  have hs := h.sound
  have hcl := clsize_le s.lay
  rcases vAlloc_cases hs hn hpref with ⟨h0, d, hd, hin, hrun⟩ | ⟨hno, hout⟩
  · obtain ⟨i, hleft, hres⟩ := alloccp_leftmost (hn.trans hcl) hin hd.fits
    rw [hrun, hres]
    by_cases hpast : s.mapsize < pref / s.lay.dbperpage * s.lay.dbperpage + (64 * d + i) + n
    · rw [if_pos hpast]
      exact ⟨fun hall _ => hall s _ rfl, fun hall s' e _ => hall ⟨h0, d, i, hd, hleft, hpast⟩⟩
    · rw [if_neg hpast]
      refine iff_of_true (fun s' e he => ?_) ?_
      · cases (Prod.mk.inj (Option.some.inj he)).2
      · rintro ⟨-, d', i', hd', hleft', hpast'⟩
        obtain rfl := hd.unique hd'
        obtain rfl := hleft.unique hleft'
        exact absurd hpast' hpast
  · generalize s.vAlloc n pref = r at hout
    cases hout with
    | enospc hnone =>
      have hall : ∀ f, ¬Place s n f := fun f hf => hnone _ _ hf.room.2 hf.room.1
      exact iff_of_true (fun _ _ _ => hall) fun _ => hall
    | found p b hpg hp hb hd hr =>
      refine iff_of_true (fun s' e he => ?_) ?_
      · cases (Prod.mk.inj (Option.some.inj he)).2
      · rintro ⟨h0, d, i, hd, -⟩
        exact absurd hd (hno.resolve_left h0 d)

/-- Two double words are in the map and the second one is allocated. The first fragments behind
them are free already, and the size of the map is still the old one. -/
def growingMap : Vmdmap :=
  let s := { emptyMap.vExtendag 128 0 with mapsize := 128 }
  ((s.allocate 0 64 32).allocate 0 96 32).vExtendag 64 128

set_option maxRecDepth 4000 in
theorem growingMap_reached : Reaches 8 growingMap := by
  have h1 : Reaches 8 (emptyMap.vExtendag 128 0) := by
    refine .call (.extendag 128 0) (.initial emptyMap_initial) ⟨?_, ?_, ?_, ?_⟩ rfl
    · decide
    · decide
    · decide
    · exact fun i _ _ => pbit_ones i
  have h2 : Reaches 8 { emptyMap.vExtendag 128 0 with mapsize := 128 } :=
    .call (.setMapsize 128) h1 (by change 128 ≤ _; decide) rfl
  have h3 : Reaches 8 ({ emptyMap.vExtendag 128 0 with mapsize := 128 }.allocate 0 64 32) :=
    .call (.request (.alloc 32 64)) h2 ⟨by decide, by change 64 < 128; decide⟩ rfl
  have h4 : Reaches 8
      (({ emptyMap.vExtendag 128 0 with mapsize := 128 }.allocate 0 64 32).allocate 0 96 32) :=
    .call (.request (.alloc 32 64)) h3 ⟨by decide, by change 64 < 128; decide⟩ rfl
  refine .call (.extendag 64 128) h4 ⟨?_, ?_, ?_, ?_⟩ rfl
  · decide
  · decide
  · decide
  · have hset : ∀ i < 192, 128 ≤ i → pbit ((({ emptyMap.vExtendag 128 0 with
        mapsize := 128 }.allocate 0 64 32).allocate 0 96 32).page 0).wmap i = true := by
      decide +kernel
    exact fun i h1 h2 => hset i h2 h1

theorem growingMap_place : Place growingMap 32 0 := by
  refine ⟨⟨by change 0 < 128; decide, by change 32 ≤ 128; decide⟩, by decide, fun i _ hi => ?_⟩
  have hfree : ∀ i < 32, pbit (growingMap.page 0).wmap i = false := by decide +kernel
  exact hfree i hi

set_option maxRecDepth 4000 in
/-- The first candidate is in the fragments behind the map, and 32 free ones at its front are
passed over. -/
theorem vAlloc_misses_place : Reaches 8 growingMap ∧ 32 ≤ growingMap.lay.clsize ∧
    64 < growingMap.mapsize ∧ growingMap.vAlloc 32 64 = some (growingMap, .error .enospc) ∧
    Place growingMap 32 0 :=
  ⟨growingMap_reached, by decide, by decide, rfl, growingMap_place⟩

/-- At the front of the map there is no hint to mislead. -/
theorem vAlloc_complete_front : 32 ≤ growingMap.lay.clsize ∧
    ∀ s' e, growingMap.vAlloc 32 0 = some (s', .error e) → ∀ f, ¬Place growingMap 32 f :=
  ⟨by decide,
    (vAlloc_complete_iff growingMap_reached (by decide) (by decide)).mpr fun h => absurd rfl h.1⟩

end Vmdmap

end Aix413.Dmap

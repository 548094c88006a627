import Mathlib.Data.Nat.ModEq
import LiveRecords.Proofs.Evaluation.References

/-! # Cycles and the limit

Which fault the guard gives to a read or a write from outside: a cycle if a cell under evaluation
is reached again with fewer cells under evaluation than the limit, and too deep if any cell is
reached with as many. So a ring of references is told to be a cycle only if it is shorter than
the limit.
-/

namespace LiveRecords

open Relation (ReflTransGen)

/-- A read or a write from outside. -/
inductive Access where
  | read (id : RecordId) (p : Place)
  | write (id : RecordId) (p : Place) (v : Value)

namespace Access

def id : Access → RecordId
  | read id _ => id
  | write id _ _ => id

def call : Access → Call
  | read id p => .read id p
  | write id p v => .write id p v

def run : Access → Edit Unit
  | read id p => discard (id.read p)
  | write id p v => discard (id.write p v)

/-- How many cells may be under evaluation at a time. -/
def limit (s : Space) (a : Access) : Nat := (s.record a.id).maxDepth

def start (s : Space) (a : Access) : Moment := ⟨a.limit s, { space := s }, a.call⟩

/-- In the course of the access this call is made. -/
def Makes (s : Space) (a : Access) (M : Moment) : Prop :=
  ReflTransGen (Calls (a.limit s)) (a.start s) M

variable {s : Space} {a : Access}

theorem fault_run (s : Space) (a : Access) : fault a.run s = (a.start s).fault? (a.limit s) := by
  cases a with
  | read id p =>
    rw [run, fault_discard, start, call, fault?_read, ← LiveRecords.fault_run]
    rfl
  | write id p v =>
    rw [run, fault_discard, start, call, fault?_write, ← LiveRecords.fault_run]
    rfl

theorem Makes.fits {M : Moment} (h : a.Makes s M) : M.Fits (a.limit s) :=
  Calls.fits_of_reached h ⟨List.nodup_nil, Nat.zero_add _⟩

/-- An access faults over a cycle just where it comes back to a cell under evaluation, with fewer
of them than the limit. -/
theorem cycle_iff {name : String} {l : Label} :
    fault a.run s = some (.cycle name l) ↔
      ∃ M id k, a.Makes s M ∧ M.Reaches id k l ∧ (id, k) ∈ M.session.flight ∧
        M.session.flight.length < a.limit s ∧ name = M.session.space.displayName id := by
  rw [fault_run, Moment.fault?_iff_stops rfl]
  constructor
  · rintro ⟨M, hmade, hstop⟩
    have hfits := Makes.fits hmade
    cases hstop with
    | cycle hr hk hroom =>
      refine ⟨M, _, _, hmade, hr, hk, ?_, rfl⟩
      have := hfits.room
      omega
  · rintro ⟨M, id, k, hmade, hr, hk, hlt, rfl⟩
    refine ⟨M, hmade, .cycle hr hk ?_⟩
    have := hmade.fits.room
    omega

/-- An access is too deep just where it comes to a cell, be it any, with as many different cells
under evaluation as the limit allows. -/
theorem tooDeep_iff {n : Nat} :
    fault a.run s = some (.tooDeep n) ↔
      n = a.limit s ∧ ∃ M id k l, a.Makes s M ∧ M.Reaches id k l ∧ M.session.flight.Nodup ∧
        M.session.flight.length = a.limit s := by
  rw [fault_run, Moment.fault?_iff_stops rfl]
  constructor
  · rintro ⟨M, hmade, hstop⟩
    have hfits := Makes.fits hmade
    cases hstop with
    | tooDeep hr hroom =>
      refine ⟨rfl, M, _, _, _, hmade, hr, hfits.nodup, ?_⟩
      have := hfits.room
      omega
  · rintro ⟨rfl, M, id, k, l, hmade, hr, -, hlen⟩
    refine ⟨M, hmade, .tooDeep hr ?_⟩
    have := hmade.fits.room
    omega

end Access

namespace Space

/-- Different fields, each holding a reference to the label of the next one, the last to that of
the first. -/
structure Ring (s : Space) {n : Nat} (ring : Fin (n + 1) → RecordId × Key) : Prop where
  injective : Function.Injective ring
  refers : ∀ i, ∃ l m f,
    s.slot? (ring i).1 (.key (ring i).2) =
      some ((ring i).2, ⟨l, .cell (.reference (ring (i + 1)).1 m)⟩) ∧
    s.slot? (ring (i + 1)).1 (.label m) = some ((ring (i + 1)).2, f)

variable {s : Space} {n : Nat} {ring : Fin (n + 1) → RecordId × Key} {p : Place} {f : Field}

/-- The field `x` steps after that at `i`. -/
def around (ring : Fin (n + 1) → RecordId × Key) (i : Fin (n + 1)) (x : Nat) : RecordId × Key :=
  ring (Fin.ofNat (n + 1) (i + x))

theorem around_zero (i : Fin (n + 1)) : around ring i 0 = ring i :=
  congrArg ring (Fin.ext (Nat.mod_eq_of_lt i.isLt))

theorem around_succ (ring : Fin (n + 1) → RecordId × Key) (i : Fin (n + 1)) (x : Nat) :
    around ring i (x + 1) = ring (Fin.ofNat (n + 1) (i + x) + 1) :=
  congrArg ring (Fin.ext (by simp [Fin.val_add, Nat.add_assoc]))

theorem around_end (i : Fin (n + 1)) : around ring i (n + 1) = ring i := by
  refine congrArg ring (Fin.ext ?_)
  rw [Fin.val_ofNat, Nat.add_mod_right, Nat.mod_eq_of_lt i.isLt]

theorem Ring.around_injective (h : s.Ring ring) (i : Fin (n + 1)) {x y : Nat} (hx : x < n + 1)
    (hy : y < n + 1) (he : around ring i x = around ring i y) : x = y := by
  have hmod : (i + x) ≡ (i + y) [MOD n + 1] := congrArg Fin.val (h.injective he)
  exact (Nat.ModEq.add_left_cancel' i.val hmod).eq_of_lt_of_lt hx hy

theorem Ring.next (h : s.Ring ring) (i : Fin (n + 1)) (x : Nat)
    (hs : s.slot? (around ring i x).1 p = some ((around ring i x).2, f)) :
    ∃ m g, s.slot? (around ring i x).1 p = some ((around ring i x).2,
        ⟨f.label, .cell (.reference (around ring i (x + 1)).1 m)⟩) ∧
      s.slot? (around ring i (x + 1)).1 (.label m) = some ((around ring i (x + 1)).2, g) := by
  obtain ⟨l, m, g, hcell, hnext⟩ := h.refers (Fin.ofNat (n + 1) (i + x))
  rw [← around_succ ring i x] at hcell hnext
  have hkey := slot?_key hs
  rw [around] at hkey
  rw [hkey] at hcell
  cases hcell
  exact ⟨m, g, hs, hnext⟩

/-- Once around the ring from `i`, with `x` of its fields crossed and `r` to go. -/
theorem Ring.crosses_rest (h : s.Ring ring) (i : Fin (n + 1)) {l : Label} {w : Value}
    (hl : s.slot? (ring i).1 (.key (ring i).2) = some ((ring i).2, ⟨l, w⟩)) (r x : Nat)
    (hx : x + r = n + 1)
    (hs : s.slot? (around ring i x).1 p = some ((around ring i x).2, f)) :
    ∃ cells, cells.length = r ∧ s.Crosses ((List.range x).reverse.map (around ring i))
      (around ring i x).1 p cells (.ring (ring i).1 (ring i).2 l) := by
  obtain ⟨m, g, hcell, hnext⟩ := h.next i x hs
  induction r generalizing x p f m g with
  | zero =>
    obtain rfl : x = n + 1 := hx
    have hmem : around ring i (n + 1) ∈ (List.range (n + 1)).reverse.map (around ring i) := by
      refine List.mem_map.mpr ⟨0, by simp, ?_⟩
      rw [around_zero, around_end]
    have hcross := Crosses.ring hcell hmem
    rw [around_end] at hcross hcell
    rw [slot?_key hcell] at hl
    cases hl
    rw [around_end]
    exact ⟨[], rfl, hcross⟩
  | succ r ih =>
    have hnot : around ring i x ∉ (List.range x).reverse.map (around ring i) := by
      intro hm
      obtain ⟨y, hy, he⟩ := List.mem_map.mp hm
      rw [List.mem_reverse, List.mem_range] at hy
      have := h.around_injective i (by omega) (by omega) he
      omega
    obtain ⟨m', g', hcell', hnext'⟩ := h.next i (x + 1) hnext
    obtain ⟨cells, hlen, hrest⟩ := ih (x + 1) (by omega) hnext m' g' hcell' hnext'
    refine ⟨around ring i x :: cells, by rw [List.length_cons, hlen], ?_⟩
    rw [List.range_succ, List.reverse_append, List.reverse_singleton, List.singleton_append,
      List.map_cons] at hrest
    exact .reference hcell hnot (alive_of_slot? hnext) hrest

theorem Ring.crosses (h : s.Ring ring) (i : Fin (n + 1))
    (hs : s.slot? (ring i).1 p = some ((ring i).2, f)) :
    ∃ cells, cells.length = n + 1 ∧
      s.Crosses [] (ring i).1 p cells (.ring (ring i).1 (ring i).2 f.label) := by
  have hs' : s.slot? (around ring i 0).1 p = some ((around ring i 0).2, f) := by
    rw [around_zero, hs]
  have hrest := h.crosses_rest i (slot?_key hs) (n + 1) 0 (Nat.zero_add _) hs'
  rwa [around_zero] at hrest

theorem Ring.read (h : s.Ring ring) (i : Fin (n + 1))
    (hs : s.slot? (ring i).1 p = some ((ring i).2, f)) :
    fault ((ring i).1.read p) s =
      if n + 1 < (s.record (ring i).1).maxDepth then
        some (.cycle (s.displayName (ring i).1) f.label)
      else some (.tooDeep (s.record (ring i).1).maxDepth) := by
  obtain ⟨cells, hlen, hpath⟩ := h.crosses i hs
  have hread : fault ((ring i).1.read p) s =
      (⟨(s.record (ring i).1).maxDepth, { space := s }, .read (ring i).1 p⟩ : Moment).fault?
        (s.record (ring i).1).maxDepth := by
    rw [fault?_read, ← fault_run]
    rfl
  rw [hread]
  split
  · rename_i hlt
    exact hpath.read_fault rfl (.refl s) rfl (by rw [hlen]; exact hlt)
  · rename_i hle
    refine hpath.read_tooDeep (.refl s) rfl ?_
    rw [hlen]
    exact Nat.lt_succ_of_le (Nat.le_of_not_lt hle)

end Space

/-- In every space a read or a write faults over a cycle just where it comes back to a cell under
evaluation with fewer of them than its limit; it is too deep just where it comes to a cell with as
many different ones under evaluation. A ring of references is told to be a cycle if it is shorter
than the limit. -/
theorem Access.guard_exact (s : Space) :
    (∀ (a : Access) name l, fault a.run s = some (.cycle name l) ↔
      ∃ M id k, a.Makes s M ∧ M.Reaches id k l ∧ (id, k) ∈ M.session.flight ∧
        M.session.flight.length < a.limit s ∧ name = M.session.space.displayName id) ∧
    (∀ (a : Access) n, fault a.run s = some (.tooDeep n) ↔
      n = a.limit s ∧ ∃ M id k l, a.Makes s M ∧ M.Reaches id k l ∧ M.session.flight.Nodup ∧
        M.session.flight.length = a.limit s) ∧
    ∀ (n : Nat) (ring : Fin (n + 1) → RecordId × Key), s.Ring ring → ∀ i p f,
      s.slot? (ring i).1 p = some ((ring i).2, f) →
      fault ((ring i).1.read p) s =
        if n + 1 < (s.record (ring i).1).maxDepth then
          some (.cycle (s.displayName (ring i).1) f.label)
        else some (.tooDeep (s.record (ring i).1).maxDepth) :=
  ⟨fun _ _ _ => Access.cycle_iff, fun _ _ => Access.tooDeep_iff, fun _ _ h i _ _ hs => h.read i hs⟩

/-- A record with this limit, and in it a reference to itself. -/
def selfReference (maxDepth : Nat) : List Operation :=
  [.newRecord none maxDepth,
    .record ⟨1⟩ (.add (.name "loop") (.cell (.reference ⟨1⟩ (.name "loop"))))]

theorem selfReference_ring (maxDepth : Nat) :
    (Space.after (selfReference maxDepth)).Ring (n := 0) fun _ => (⟨1⟩, ⟨1⟩) :=
  ⟨fun i j _ => Fin.ext (by omega), fun _ =>
    ⟨.name "loop", .name "loop", ⟨.name "loop", .cell (.reference ⟨1⟩ (.name "loop"))⟩, rfl, rfl⟩⟩

theorem guard_exact_selfReference :
    fault (RecordId.read ⟨1⟩ (.label (.name "loop"))) (Space.after (selfReference 2)) =
        some (.cycle "#1" (.name "loop")) ∧
      fault (RecordId.read ⟨1⟩ (.label (.name "loop"))) (Space.after (selfReference 1)) =
        some (.tooDeep 1) :=
  ⟨(Access.guard_exact (Space.after (selfReference 2))).2.2 0 _ (selfReference_ring 2) 0 _
      ⟨.name "loop", .cell (.reference ⟨1⟩ (.name "loop"))⟩ rfl,
    (Access.guard_exact (Space.after (selfReference 1))).2.2 0 _ (selfReference_ring 1) 0 _
      ⟨.name "loop", .cell (.reference ⟨1⟩ (.name "loop"))⟩ rfl⟩

/-- With a limit of one cell, a reference to itself is not told to be a cycle. -/
theorem not_ring_read_cycle :
    ¬ ∀ s, Reachable s → ∀ (n : Nat) (ring : Fin (n + 1) → RecordId × Key), s.Ring ring →
      ∀ i p f, s.slot? (ring i).1 p = some ((ring i).2, f) →
      n + 1 ≤ (s.record (ring i).1).maxDepth →
      ∃ name l, fault ((ring i).1.read p) s = some (.cycle name l) := by
  intro hall
  obtain ⟨name, l, h⟩ := hall _ (.after (selfReference 1)) 0 _ (selfReference_ring 1) 0
    (.label (.name "loop")) ⟨.name "loop", .cell (.reference ⟨1⟩ (.name "loop"))⟩ rfl (by decide)
  have hdeep : fault (RecordId.read ⟨1⟩ (.label (.name "loop"))) (Space.after (selfReference 1)) =
      some (.tooDeep 1) := rfl
  rw [hdeep] at h
  cases h

end LiveRecords

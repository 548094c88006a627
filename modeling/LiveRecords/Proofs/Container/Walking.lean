import LiveRecords.Container.Walk
import LiveRecords.Proofs.Container.Flattening

/-! # Walks flatten

What a walk has visited is what the fields behind it flatten to, at every level of nesting that it
is in. Each step takes it to the next field that holds no container, until all have been visited.
-/

namespace LiveRecords

namespace Space

/-- A walk below `g` is at the field with the number `p`, inside the containers of the frames, and
has visited the fields `done`. -/
inductive Halfway (s : Space) : Holder → Nat → List Frame → List (Key × Field) → Prop where
  | between {g behind ahead done} : (s.contents g).entries = behind ++ ahead →
      s.Flattens behind done → Halfway s g behind.length [] done
  | inside {g behind k l i ahead before p frames done} :
      (s.contents g).entries = behind ++ (k, ⟨l, .tree i⟩) :: ahead → s.Flattens behind before →
      Halfway s (.shared i) p frames done →
      Halfway s g (behind.length + 1) (frames ++ [⟨i, p⟩]) (before ++ done)

/-- After `done` another field has been visited below `g`, or there was no other. -/
def Onward (s : Space) (g : Holder) (done : List (Key × Field)) :
    Option ((Key × Field) × Nat × List Frame) → Prop
  | none => s.Flattens (s.contents g).entries done
  | some (item, p, frames) => s.Halfway g p frames (done ++ [item])

/-- The first field of a container has been visited, or it has none to visit. -/
def Entered (s : Space) (i : ContainerId) : Option ((Key × Field) × List Frame) → Prop
  | none => s.Flattens (s.container i).entries []
  | some (item, frames) =>
    ∃ p inner, frames = inner ++ [⟨i, p⟩] ∧ s.Halfway (.shared i) p inner [item]

end Space

namespace Walk

/-- The next field below `g`, inside the frames or from the position on. -/
def advance (s : Space) (g : Holder) (p : Nat) (frames : List Frame) :
    Option ((Key × Field) × Nat × List Frame) :=
  match resume s frames with
  | some (item, frames) => some (item, p, frames)
  | none => seekFrom s (s.contents g) p

/-- The walk has visited the fields `done`. -/
def Visited (s : Space) (w : Walk) (done : List (Key × Field)) : Prop :=
  s.Halfway w.root w.position w.frames done

/-- The walk visits these fields and ends. -/
def Visits (s : Space) (w : Walk) (items : List (Key × Field)) : Prop :=
  ∀ n, (w.take s n).1 = (items.map some ++ [none]).take n

theorem next_eq (s : Space) (w : Walk) :
    next s w = match advance s w.root w.position w.frames with
      | some (item, position, frames) => (some item, { w with position, frames })
      | none =>
        (none, { w with position := (s.contents w.root).order.length, frames := [] }) := by
  rw [next, advance]
  cases resume s w.frames with
  | some r => rfl
  | none => cases hp : seekFrom s (s.contents w.root) w.position <;> simp only [hp]

/-- In the outermost frame the walk goes on as below the container of the frame. -/
theorem resume_append (s : Space) (frames : List Frame) (i : ContainerId) (p : Nat) :
    resume s (frames ++ [⟨i, p⟩]) = (advance s (.shared i) p frames).map
      fun (item, q, inner) => (item, inner ++ [⟨i, q⟩]) := by
  induction frames with
  | nil =>
    change resume s [⟨i, p⟩] = (seekFrom s (s.container i) p).map _
    rw [resume]
    cases seekFrom s (s.container i) p <;> rfl
  | cons frame frames ih =>
    obtain ⟨j, q⟩ := frame
    rw [List.cons_append, resume, advance, resume]
    cases seekFrom s (s.container j) q with
    | some r =>
      obtain ⟨item, q', inner⟩ := r
      simp
    | none => exact ih

end Walk

namespace Space

open Walk (seek seekFrom enter advance resume)

variable {s : Space} {g : Holder} {p : Nat} {frames : List Frame} {i : ContainerId} {d : Nat}
  {behind ahead done : List (Key × Field)}

theorem seek_onward {enter : ContainerId → Option ((Key × Field) × List Frame)}
    (he : ∀ k l i, (k, ⟨l, .tree i⟩) ∈ ahead → s.Entered i (enter i))
    (hg : (s.contents g).entries = behind ++ ahead) (hb : s.Flattens behind done) :
    s.Onward g done (seek enter (s.contents g) behind.length (ahead.map (·.1))) := by
  induction ahead generalizing behind done with
  | nil =>
    rw [List.append_nil] at hg
    exact hg ▸ hb
  | cons e ahead ih =>
    have hmem : e ∈ (s.contents g).entries := by simp [hg]
    have hg' : (s.contents g).entries = (behind ++ [e]) ++ ahead := by simp [hg]
    have hlen : (behind ++ [e]).length = behind.length + 1 := by simp
    obtain ⟨k, l, v⟩ := e
    rw [List.map_cons, seek, (Container.mem_entries.mp hmem).2]
    cases v with
    | tree i =>
      have hi := he k l i List.mem_cons_self
      dsimp only
      cases hr : enter i with
      | none =>
        rw [hr] at hi
        have hb' := hb.pass k l hi
        rw [List.append_nil] at hb'
        rw [← hlen]
        exact ih (fun k l i h => he k l i (List.mem_cons_of_mem _ h)) hg' hb'
      | some r =>
        rw [hr] at hi
        obtain ⟨item, frames⟩ := r
        obtain ⟨q, inner, rfl, hin⟩ := hi
        exact .inside hg hb hin
    | _ =>
      rw [← hlen]
      exact .between hg' (hb.append (.plain rfl .nil))

theorem Layered.enter_entered (hs : s.Layered) (hd : s.Bounded d i) :
    s.Entered i (enter s d i) := by
  induction d generalizing i with
  | zero =>
    change s.Flattens (s.container i).entries []
    rw [entries_eq_nil hd]
    exact .nil
  | succ d ih =>
    have hseek : s.Onward (.shared i) []
        (seek (enter s d) (s.container i) 0 ((s.container i).entries.map (·.1))) :=
      seek_onward (fun _ _ _ he => ih (hd.of_encloses ⟨_, _, (Container.mem_entries.mp he).2⟩))
        rfl .nil
    have horder : (s.container i).entries.map (·.1) = (s.container i).order :=
      (hs.wellKept.contents (.shared i)).keys_entries
    rw [horder] at hseek
    rw [enter]
    generalize seek (enter s d) (s.container i) 0 (s.container i).order = r at hseek
    cases r with
    | none => exact hseek
    | some r => exact ⟨_, _, rfl, hseek⟩

theorem Layered.seekFrom_onward (hs : s.Layered) (hg : (s.contents g).entries = behind ++ ahead)
    (hb : s.Flattens behind done) :
    s.Onward g done (seekFrom s (s.contents g) behind.length) := by
  have hdrop : (s.contents g).order.drop behind.length = ahead.map (·.1) := by
    rw [← (hs.wellKept.contents g).keys_entries, hg, List.map_append, List.drop_left']
    exact List.length_map _
  rw [seekFrom, hdrop]
  exact seek_onward (fun _ _ i _ => hs.enter_entered (hs.bounded i)) hg hb

theorem Halfway.onward (h : s.Halfway g p frames done) (hs : s.Layered) :
    s.Onward g done (advance s g p frames) := by
  induction h with
  | between hg hb => exact hs.seekFrom_onward hg hb
  | @inside g behind k l i ahead before p frames done hg hb _ ih =>
    rw [advance, Walk.resume_append]
    cases hr : advance s (.shared i) p frames with
    | some r =>
      rw [hr] at ih
      obtain ⟨item, q, inner⟩ := r
      have hinside := Halfway.inside hg hb ih
      rwa [← List.append_assoc] at hinside
    | none =>
      rw [hr] at ih
      have hg' : (s.contents g).entries = (behind ++ [(k, ⟨l, .tree i⟩)]) ++ ahead := by simp [hg]
      have hseek := hs.seekFrom_onward hg' (hb.pass k l ih)
      rwa [List.length_append] at hseek

theorem Halfway.exists_left (h : s.Halfway g p frames done) (hs : s.Layered) :
    ∃ left, s.Flattens (s.contents g).entries (done ++ left) := by
  induction h with
  | @between g behind ahead done hg hb =>
    obtain ⟨left, hleft⟩ := hs.exists_flattens ahead
    exact ⟨left, hg ▸ hb.append hleft⟩
  | @inside g behind k l i ahead before p frames done hg hb _ ih =>
    obtain ⟨inner, hinner⟩ := ih
    obtain ⟨left, hleft⟩ := hs.exists_flattens ahead
    refine ⟨inner ++ left, ?_⟩
    have hall := hb.append (.nested (k := k) (l := l) hinner hleft)
    rw [hg]
    simpa only [List.append_assoc] using hall

end Space

namespace Walk

variable {s : Space} {w : Walk} {done left : List (Key × Field)}

theorem visited_start (s : Space) (g : Holder) : Visited s { root := g } [] :=
  .between rfl .nil

theorem Visited.next (h : Visited s w done) (hs : s.Layered) :
    (w.next s).2.root = w.root ∧ Visited s (w.next s).2 (done ++ (w.next s).1.toList) ∧
      ((w.next s).1 = none → s.Flattens (s.contents w.root).entries done) := by
  have honward := Space.Halfway.onward h hs
  rw [next_eq]
  cases hr : advance s w.root w.position w.frames with
  | some r =>
    rw [hr] at honward
    exact ⟨rfl, honward, nofun⟩
  | none =>
    rw [hr] at honward
    refine ⟨rfl, ?_, fun _ => honward⟩
    have hend : s.Halfway w.root (s.contents w.root).entries.length [] done :=
      .between (List.append_nil _).symm honward
    have hlen : (s.contents w.root).entries.length = (s.contents w.root).order.length := by
      rw [← (hs.wellKept.contents w.root).keys_entries, List.length_map]
    rw [hlen] at hend
    simpa [Visited] using hend

/-- From wherever it is, the walk visits what is left and ends. -/
theorem Visited.visits (h : Visited s w done) (hs : s.Layered)
    (hleft : s.Flattens (s.contents w.root).entries (done ++ left)) : w.Visits s left := by
  intro n
  induction n generalizing w done left with
  | zero => rfl
  | succ n ih =>
    obtain ⟨hroot, hnext, hend⟩ := h.next hs
    rw [take]
    rcases hw : w.next s with ⟨_ | e, w'⟩ <;> rw [hw] at hroot hnext hend
    · have hall := hend rfl
      obtain rfl : left = [] := List.self_eq_append_right.mp (hall.unique hleft)
      simp
    · obtain ⟨left', hleft'⟩ := hnext.exists_left hs
      have hall : s.Flattens (s.contents w.root).entries (done ++ ([e] ++ left')) := by
        rw [← List.append_assoc]
        exact hroot ▸ hleft'
      obtain rfl := List.append_cancel_left (hall.unique hleft)
      change some e :: (w'.take s n).1 = _
      rw [ih hnext hleft']
      rfl

end Walk

theorem Space.Layered.walk_fields {s : Space} {g : Holder} {items : List (Key × Field)}
    (hs : s.Layered) (h : s.Flattens (s.contents g).entries items) : Walk.fields s g = items := by
  have hvisits : ({ root := g } : Walk).Visits s items := (Walk.visited_start s g).visits hs h
  rw [Walk.fields, hs.flattens_iff.mp h, hvisits items.length,
    List.take_left' (List.length_map some), List.filterMap_map]
  exact List.filterMap_some

end LiveRecords

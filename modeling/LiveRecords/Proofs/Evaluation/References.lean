import LiveRecords.Proofs.Container.WellKept
import LiveRecords.Proofs.Evaluation.Cascade
import LiveRecords.Proofs.Evaluation.Guard
import LiveRecords.Proofs.Evaluation.Traceless

/-! # Following references

From a field on, references lead from one field to the next, until there is a field without a
cell, no field, no record any more, or a reference met before. What is read at the start is what
the end says, if the references are no more than may be nested in one another; and what is
assigned at the start goes to the end, every reference passed being told.
-/

namespace LiveRecords

/-- Whether a value is a reference to a label, or no cell at all. -/
def Value.refersOnly : Value → Bool
  | .cell (.reference _ l) => l ≠ .empty
  | .cell (.derived _) => false
  | _ => true

/-- How a path along references ends: in a field without a cell, at a label that a record has no
field for, at a reference to a record no longer alive, or at a reference met before. -/
inductive Stop where
  | plain (id : RecordId) (k : Key) (f : Field)
  | missing (id : RecordId) (l : Label)
  | dropped (l : Label)
  | ring (id : RecordId) (k : Key) (l : Label)

/-- How many cells are nested in one another for a path with so many references to come to its
end. A ring is found out at a cell more. -/
def Stop.depth (n : Nat) : Stop → Nat
  | ring _ _ _ => n + 1
  | _ => n

theorem Stop.depth_succ (stop : Stop) (n : Nat) : stop.depth (n + 1) = stop.depth n + 1 := by
  cases stop <;> rfl

/-- What there is to read at the end of a path. -/
def Stop.outcome (s : Space) : Stop → Except Fault Value
  | plain _ _ f => .ok f.value
  | missing _ l => .error (.notFound (.label l))
  | dropped l => .error (.notFound (.referenced l))
  | ring id _ l => .error (.cycle (s.displayName id) l)

namespace Space

/-- The path from a place crosses these references one after the other and stops so, those in
`behind` having been crossed before. -/
inductive Crosses (s : Space) :
    List (RecordId × Key) → RecordId → Place → List (RecordId × Key) → Stop → Prop where
  | plain {behind id p k f} : s.slot? id p = some (k, f) → f.value.isCell = false →
      Crosses s behind id p [] (.plain id k f)
  | missing {behind id l} : (s.record id).fields.key? l = none → s.alive id = true →
      Crosses s behind id (.label l) [] (.missing id l)
  | ring {behind id p k l target m} :
      s.slot? id p = some (k, ⟨l, .cell (.reference target m)⟩) → (id, k) ∈ behind →
      Crosses s behind id p [] (.ring id k l)
  | dropped {behind id p k l target m} :
      s.slot? id p = some (k, ⟨l, .cell (.reference target m)⟩) → (id, k) ∉ behind →
      s.alive target = false → Crosses s behind id p [(id, k)] (.dropped m)
  | reference {behind id p k l target m cells stop} :
      s.slot? id p = some (k, ⟨l, .cell (.reference target m)⟩) → (id, k) ∉ behind →
      s.alive target = true → Crosses s ((id, k) :: behind) target (.label m) cells stop →
      Crosses s behind id p ((id, k) :: cells) stop

variable {s t : Space} {behind cells : List (RecordId × Key)} {id j : RecordId} {p : Place}
  {k q : Key} {f : Field} {stop : Stop}

theorem Crosses.nodup (h : s.Crosses behind id p cells stop) :
    cells.Nodup ∧ ∀ e ∈ cells, e ∉ behind := by
  induction h with
  | plain => exact ⟨List.nodup_nil, nofun⟩
  | missing => exact ⟨List.nodup_nil, nofun⟩
  | ring => exact ⟨List.nodup_nil, nofun⟩
  | dropped _ hk => exact ⟨List.nodup_singleton _, by simpa using hk⟩
  | reference _ hk _ _ ih =>
    refine ⟨List.nodup_cons.mpr ⟨fun hm => ih.2 _ hm List.mem_cons_self, ih.1⟩, ?_⟩
    rintro e (_ | ⟨_, he⟩)
    · exact hk
    · exact fun hb => ih.2 e he (List.mem_cons_of_mem _ hb)

/-- A place has one path: what it designates, what was crossed before and which records are alive
tell the rules apart. -/
theorem Crosses.unique {cells' : List (RecordId × Key)} {stop' : Stop}
    (h : s.Crosses behind id p cells stop) (h' : s.Crosses behind id p cells' stop') :
    cells' = cells ∧ stop' = stop := by
  have hnone : ∀ {i l}, (s.record i).fields.key? l = none → s.slot? i (.label l) = none := by
    intro i l hk
    simp [slot?, Container.slot?, Container.resolve, hk]
  induction h generalizing cells' stop' with
  | plain => cases h' <;> grind [Value.isCell]
  | missing => cases h' <;> grind
  | ring => cases h' <;> grind [Value.isCell]
  | dropped => cases h' <;> grind [Value.isCell]
  | reference hs hk ha _ ih =>
    cases h' with
    | reference hs' _ _ hpath =>
      rw [hs] at hs'
      cases hs'
      obtain ⟨rfl, rfl⟩ := ih hpath
      exact ⟨rfl, rfl⟩
    | _ => grind [Value.isCell]

theorem Crosses.congr (ha : s.Agree t) (h : s.Crosses behind id p cells stop) :
    t.Crosses behind id p cells stop := by
  induction h with
  | plain hs hf => exact .plain ((ha.slot? _ _).trans hs) hf
  | missing hk hl => exact .missing (ha.fields _ ▸ hk) ((ha.alive _).trans hl)
  | ring hs hk => exact .ring ((ha.slot? _ _).trans hs) hk
  | dropped hs hk hl => exact .dropped ((ha.slot? _ _).trans hs) hk ((ha.alive _).trans hl)
  | reference hs hk hl _ ih =>
    exact .reference ((ha.slot? _ _).trans hs) hk ((ha.alive _).trans hl) ih

/-- Every cell that a record holds is a reference to a label. -/
def OnlyReferences (s : Space) : Prop :=
  ∀ id k f, (s.record id).fields.field? k = some f → f.value.refersOnly = true

/-- The fields of all records. -/
def fieldKeys (s : Space) : List (RecordId × Key) :=
  s.records.entries.flatMap fun (id, r) => r.fields.fields.keys.map (id, ·)

theorem mem_fieldKeys (hs : s.slot? id p = some (k, f)) : (id, k) ∈ s.fieldKeys := by
  obtain ⟨-, hk⟩ := (Container.slot?_eq_some ..).mp hs
  obtain ⟨r, hr⟩ := Option.isSome_iff_exists.mp (alive_of_slot? hs)
  have hid : s.record id = r := by simp [record, hr]
  rw [hid] at hk
  have hkeys : k ∈ r.fields.fields.keys := Table.mem_keys_iff.mpr ⟨f, hk⟩
  exact List.mem_flatMap.mpr ⟨(id, r), Table.mem_of_lookup hr, List.mem_map.mpr ⟨k, hkeys, rfl⟩⟩

theorem OnlyReferences.slot_cases (hr : s.OnlyReferences) (hs : s.slot? id p = some (k, f)) :
    f.value.isCell = false ∨ ∃ target m, m ≠ .empty ∧ f.value = .cell (.reference target m) := by
  have hf := hr id k f ((Container.slot?_eq_some ..).mp hs).2
  obtain ⟨l, v⟩ := f
  cases v with
  | cell c =>
    cases c with
    | derived i => cases hf
    | reference target m => exact .inr ⟨target, m, by simpa [Value.refersOnly] using hf, rfl⟩
  | _ => exact .inl rfl

/-- Along references alone every field has a path. The induction is on how many fields there are
beyond those behind. -/
theorem WellKept.exists_crosses (hw : s.WellKept) (hr : s.OnlyReferences) {n : Nat}
    (hn : behind.Nodup) (hsub : ∀ e ∈ behind, e ∈ s.fieldKeys)
    (hlen : s.fieldKeys.length ≤ behind.length + n) (hs : s.slot? id p = some (k, f)) :
    ∃ cells stop, s.Crosses behind id p cells stop := by
  induction n generalizing behind id p k f with
  | zero =>
    have hk : (id, k) ∈ behind := by
      by_contra hk
      have hmore : ((id, k) :: behind).length ≤ s.fieldKeys.length :=
        (List.subperm_of_subset (List.nodup_cons.mpr ⟨hk, hn⟩)
          (List.cons_subset.mpr ⟨mem_fieldKeys hs, hsub⟩)).length_le
      rw [List.length_cons] at hmore
      omega
    obtain ⟨l, v⟩ := f
    rcases hr.slot_cases hs with hv | ⟨target, m, -, rfl⟩
    · exact ⟨_, _, .plain hs hv⟩
    · exact ⟨_, _, .ring hs hk⟩
  | succ n ih =>
    obtain ⟨l, v⟩ := f
    rcases hr.slot_cases hs with hv | ⟨target, m, -, rfl⟩
    · exact ⟨_, _, .plain hs hv⟩
    by_cases hk : (id, k) ∈ behind
    · exact ⟨_, _, .ring hs hk⟩
    cases ha : s.alive target with
    | false => exact ⟨_, _, .dropped hs hk ha⟩
    | true =>
      cases hm : (s.record target).fields.key? m with
      | none => exact ⟨_, _, .reference hs hk ha (.missing hm ha)⟩
      | some q =>
        obtain ⟨w, hq⟩ := hw.slot?_of_key? hm
        obtain ⟨cells, stop, hpath⟩ := ih (List.nodup_cons.mpr ⟨hk, hn⟩)
          (List.forall_mem_cons.mpr ⟨mem_fieldKeys hs, hsub⟩)
          (by rw [List.length_cons]; omega) hq
        exact ⟨_, _, .reference hs hk ha hpath⟩

end Space

section Reading

variable {s : Space} {behind cells : List (RecordId × Key)} {id j : RecordId} {p : Place}
  {k q : Key} {f : Field} {stop : Stop} {σ : Session} {limit room : Nat}

theorem Space.Crosses.read_ok (h : s.Crosses behind id p cells (.plain j q f)) (hσ : σ.Over s)
    (hf : σ.flight = behind) (hroom : cells.length ≤ room) :
    readWithin limit room id p σ = .ok f.value σ := by
  generalize hstop : Stop.plain j q f = stop at h
  induction h generalizing room σ with
  | plain hs hc =>
    cases hstop
    exact readWithin_plain ((hσ.agree.slot? _ _).trans hs) hc
  | missing => cases hstop
  | ring => cases hstop
  | dropped => cases hstop
  | @reference behind id p k l target m cells stop hs hk ha _ ih =>
    obtain ⟨room, rfl⟩ : ∃ r, room = r + 1 := ⟨room - 1, by rw [List.length_cons] at hroom; omega⟩
    have hl := Space.alive_of_slot? hs
    have hover := hσ.enter hl k
    have hinner := ih hover (by rw [← hf]; rfl) (Nat.le_of_succ_le_succ hroom) hstop
    have heval : Cell.eval (readWithin limit room) id (.reference target m) (Eval.enter id k σ) =
        .ok f.value (Eval.enter id k σ) := by
      rw [Cell.eval, bind_of_ok (by rw [Eval.follow_run hover.agree, if_pos ha])]
      exact hinner
    have hread := Eval.settling_guarded_of_ok (l := l) (hf ▸ hk) hover.clear heval
    rw [Eval.leave_enter hσ.ascending ((hσ.agree.alive id).trans hl)] at hread
    rw [readWithin, readBy_cell ((hσ.agree.slot? id p).trans hs), hread]

theorem Space.Crosses.read_fault (h : s.Crosses behind id p cells stop) {w : Fault}
    (hw : stop.outcome s = .error w) (ha : s.Agree σ.space) (hf : σ.flight = behind)
    (hroom : stop.depth cells.length ≤ room) :
    (⟨room, σ, .read id p⟩ : Moment).fault? limit = some w := by
  induction h generalizing room σ with
  | plain => cases hw
  | @missing behind id l hk hl =>
    cases hw
    have hk' : (σ.space.record id).fields.key? l = none := ha.fields id ▸ hk
    have hs : σ.space.slot? id (.label l) = none := by
      simp [Space.slot?, Container.slot?, Container.resolve, hk']
    have hread : ∀ evaluate, fault (readBy evaluate id (.label l)) σ =
        some (.notFound (.label l)) := by
      intro evaluate
      rw [fault, readBy_deeper hs]
      simp only [Space.value, hk']
    rw [fault?_read]
    cases room <;> exact hread _
  | @ring behind id p k l target m hs hk =>
    cases hw
    have hs' := (ha.slot? id p).trans hs
    have hstop : (⟨room, σ, .read id p⟩ : Moment).Stops limit
        (.cycle (σ.space.displayName id) l) := .cycle (.read hs') (hf ▸ hk) (Nat.ne_of_gt hroom)
    rw [← ha.displayName]
    exact hstop.fault?
  | @dropped behind id p k l target m hs hk hl =>
    cases hw
    obtain ⟨room, rfl⟩ : ∃ r, room = r + 1 := ⟨room - 1, (Nat.sub_add_cancel hroom).symm⟩
    have hs' := (ha.slot? id p).trans hs
    have agree : s.Agree (Eval.enter id k σ).space :=
      ha.trans (.setRecord (Space.alive_of_slot? hs') rfl rfl)
    have hpass : ∀ g, Fault.notFound (.referenced m) ≠ .failed g := fun _ hg => by cases hg
    rw [fault?_read, fault_readWithin_iff hpass hs' (hf ▸ hk), Cell.eval]
    refine fault_bind_of_fault ?_
    rw [fault, Eval.follow_run agree, hl]
    rfl
  | @reference behind id p k l target m cells stop hs hk hl _ ih =>
    rw [List.length_cons, Stop.depth_succ] at hroom
    obtain ⟨room, rfl⟩ : ∃ r, room = r + 1 := ⟨room - 1, by omega⟩
    have hs' := (ha.slot? id p).trans hs
    have agree : s.Agree (Eval.enter id k σ).space :=
      ha.trans (.setRecord (Space.alive_of_slot? hs') rfl rfl)
    have hcall : Calls limit ⟨room + 1, σ, .read id p⟩
        ⟨room, Eval.enter id k σ, .read target (.label m)⟩ :=
      .readReference hs' (hf ▸ hk) ((ha.alive target).trans hl)
    have hpass : ∀ g, w ≠ .failed g := by
      rintro g rfl
      cases stop <;> cases hw
    exact hcall.fault? hpass (ih hw agree (by rw [← hf]; rfl) (Nat.le_of_succ_le_succ hroom))

theorem Space.Crosses.read_tooDeep (h : s.Crosses behind id p cells stop)
    (ha : s.Agree σ.space) (hf : σ.flight = behind) (hroom : room < stop.depth cells.length) :
    (⟨room, σ, .read id p⟩ : Moment).fault? limit = some (.tooDeep limit) := by
  induction h generalizing room σ with
  | plain => exact absurd hroom (Nat.not_lt_zero room)
  | missing => exact absurd hroom (Nat.not_lt_zero room)
  | ring hs =>
    obtain rfl : room = 0 := Nat.lt_one_iff.mp hroom
    exact (Moment.Stops.tooDeep (.read ((ha.slot? _ _).trans hs)) rfl).fault?
  | dropped hs =>
    obtain rfl : room = 0 := Nat.lt_one_iff.mp hroom
    exact (Moment.Stops.tooDeep (.read ((ha.slot? _ _).trans hs)) rfl).fault?
  | @reference behind id p k l target m cells stop hs hk hl _ ih =>
    have hs' := (ha.slot? id p).trans hs
    cases room with
    | zero => exact (Moment.Stops.tooDeep (.read hs') rfl).fault?
    | succ room =>
      rw [List.length_cons, Stop.depth_succ] at hroom
      have agree : s.Agree (Eval.enter id k σ).space :=
        ha.trans (.setRecord (Space.alive_of_slot? hs') rfl rfl)
      have hcall : Calls limit ⟨room + 1, σ, .read id p⟩
          ⟨room, Eval.enter id k σ, .read target (.label m)⟩ :=
        .readReference hs' (hf ▸ hk) ((ha.alive target).trans hl)
      exact hcall.fault? fun _ hg => by cases hg
        (ih agree (by rw [← hf]; rfl) (Nat.lt_of_succ_lt_succ hroom))

end Reading

end LiveRecords

import LiveRecords.Proofs.Operations

/-! # Ledgers

A ledger is a plain list of fields with their keys. The operations on the fields of a holder are
spelled out on ledgers; that holders follow them is shown elsewhere. On a ledger a key stays with
its field until it is dropped, and does not come back.
-/

namespace LiveRecords

/-- What an operation on fields answers. -/
inductive Reply where
  | key (k : Key)
  | value (v : Value)
  | field (f : Field)
  | done
deriving DecidableEq

/-- Fields with their keys in order, and the number of the next key to be minted. -/
structure Ledger where
  entries : List (Key × Field)
  next : Nat
deriving DecidableEq

/-- What the fields of a holder do not tell: which values are refused for having the holder inside
them, and of keys that are nested deeper, which values are refused there. -/
structure Surroundings where
  bars : Value → Bool
  below : Key → Option (Value → Bool)

namespace Ledger

def keys (L : Ledger) : List Key := L.entries.map (·.1)

def field? (L : Ledger) (k : Key) : Option Field := (L.entries.find? (·.1 = k)).map (·.2)

/-- The entry with the label `l`; the empty label designates none. -/
def labelled? (L : Ledger) (l : Label) : Option (Key × Field) :=
  if l = .empty then none else L.entries.find? (·.2.label = l)

def key? (L : Ledger) (l : Label) : Option Key := (L.labelled? l).map (·.1)

def resolve (L : Ledger) : Place → Option Key
  | .key k => if (L.field? k).isSome then some k else none
  | .label l => L.key? l

/-- Let `f` be the field at `k`, in its place. -/
def put (L : Ledger) (k : Key) (f : Field) : Ledger :=
  { L with entries := L.entries.map fun e => if e.1 = k then (k, f) else e }

def drop (L : Ledger) (k : Key) : Ledger := { L with entries := L.entries.filter (·.1 ≠ k) }

/-- Take in a field under the next key, where `arrange` puts it. -/
def enter (L : Ledger) (f : Field)
    (arrange : Key × Field → List (Key × Field) → List (Key × Field)) : Ledger :=
  { entries := arrange (⟨L.next⟩, f) L.entries, next := L.next + 1 }

/-- Right before the entry at `next`. -/
def before (next : Key) (e : Key × Field) (entries : List (Key × Field)) : List (Key × Field) :=
  entries.takeWhile (·.1 ≠ next) ++ e :: entries.dropWhile (·.1 ≠ next)

def last (e : Key × Field) (entries : List (Key × Field)) : List (Key × Field) := entries ++ [e]

section Operations

def relabel (k : Key) (l : Label) : EStateM Fault Ledger Unit := fun L =>
  match L.field? k with
  | none => .error (.notFound (.key k)) L
  | some f =>
    if f.label = l then .ok () L
    else if (L.key? l).isSome then .error (.refused (.labelInUse l)) L
    else .ok () (L.put k { f with label := l })

def remove (k : Key) : EStateM Fault Ledger Field := fun L =>
  match L.field? k with
  | none => .error (.notFound (.key k)) L
  | some f => .ok f (L.drop k)

variable (env : Surroundings)

def insert (l : Label) (v : Value)
    (arrange : Key × Field → List (Key × Field) → List (Key × Field)) :
    EStateM Fault Ledger Key := fun L =>
  if (L.key? l).isSome then .error (.refused (.labelInUse l)) L
  else if env.bars v then .error (.refused .selfNesting) L
  else .ok ⟨L.next⟩ (L.enter ⟨l, v⟩ arrange)

def addBefore (next : Key) (l : Label) (v : Value) : EStateM Fault Ledger Key := fun L =>
  if (L.field? next).isSome then insert env l v (before next) L
  else .error (.notFound (.key next)) L

def replace (k : Key) (v : Value) : EStateM Fault Ledger Value := fun L =>
  match L.field? k with
  | none => .error (.notFound (.key k)) L
  | some f =>
    if env.bars v then .error (.refused .selfNesting) L
    else .ok f.value (L.put k { f with value := v })

/-- Replace the value of a field, answering its key. -/
def store (k : Key) (v : Value) : EStateM Fault Ledger Key := do
  discard (replace env k v)
  return k

def assign (p : Place) (v : Value) : EStateM Fault Ledger Key := fun L =>
  match p with
  | .label l =>
    match L.key? l with
    | some k => store env k v L
    | none => insert env l v last L
  | .key k =>
    if (L.field? k).isSome then store env k v L
    else
      match env.below k with
      | some bars => if bars v then .error (.refused .selfNesting) L else .ok k L
      | none => .error (.notFound (.key k)) L

def clear (p : Place) : EStateM Fault Ledger Key := fun L =>
  match p with
  | .label l =>
    match L.key? l with
    | some k => store env k .empty L
    | none => .error (.notFound (.label l)) L
  | .key k => assign env (.key k) .empty L

def change (k : Key) (l : Label) (v : Value) : EStateM Fault Ledger Unit := do
  relabel k l
  discard (replace env k v)

def assignAll (fields : List (Label × Value)) (ignore : List Label) : EStateM Fault Ledger Unit :=
  fields.forM fun (l, v) => do
    unless ignore.contains l do discard (assign env (.label l) v)

/-- Fill a ledger for the new container `id`. -/
def ofFields (id : ContainerId) (fields : List (Label × Value)) :
    EStateM Fault Ledger ContainerId := do
  assignAll env fields []
  return id

end Operations

end Ledger

open Ledger in
/-- What an operation comes to on a ledger. -/
def ContainerOp.book (env : Surroundings) : ContainerOp → EStateM Fault Ledger Reply
  | add l v => .key <$> insert env l v last
  | addBefore next l v => .key <$> Ledger.addBefore env next l v
  | assign p v => .key <$> Ledger.assign env p v
  | replace k v => .value <$> Ledger.replace env k v
  | clear p => .key <$> Ledger.clear env p
  | remove k => .field <$> Ledger.remove k
  | relabel k l => (fun _ => .done) <$> Ledger.relabel k l
  | change k l v => (fun _ => .done) <$> Ledger.change env k l v
  | assignAll fields ignore => (fun _ => .done) <$> Ledger.assignAll env fields ignore

namespace Ledger

theorem before_perm (next : Key) (e : Key × Field) (entries : List (Key × Field)) :
    (before next e entries).Perm (e :: entries) := by
  have h := List.takeWhile_append_dropWhile (p := fun x : Key × Field => decide (x.1 ≠ next))
    (l := entries)
  refine List.perm_middle.trans ?_
  rw [h]

theorem last_perm (e : Key × Field) (entries : List (Key × Field)) :
    (last e entries).Perm (e :: entries) :=
  List.perm_append_singleton e entries

def Keeps (P : Ledger → Prop) (L M : Ledger) : Prop := P L → P M

instance (P : Ledger → Prop) : IsPreorder Ledger (Keeps P) where
  refl _ h := h
  trans _ _ _ h h' hL := h' (h hL)

/-- A property that is kept where a field changes in its place and where a field is taken in. -/
structure Steady (P : Ledger → Prop) : Prop where
  put : ∀ {L} k f, P L → P (L.put k f)
  enter : ∀ {L} f {arrange}, (∀ e es, (arrange e es).Perm (e :: es)) → P L → P (L.enter f arrange)

namespace Steady

variable {P : Ledger → Prop} (h : Steady P) (env : Surroundings)
include h

theorem relabel (k : Key) (l : Label) : Moves (Keeps P) (relabel k l) := by
  intro L hL
  cases hf : L.field? k with
  | none => simpa only [final, Ledger.relabel, hf] using hL
  | some f =>
    by_cases hl : f.label = l
    · simpa only [final, Ledger.relabel, hf, if_pos hl] using hL
    · by_cases hk : (L.key? l).isSome = true
      · simpa only [final, Ledger.relabel, hf, if_neg hl, if_pos hk] using hL
      · simpa only [final, Ledger.relabel, hf, if_neg hl, if_neg hk] using h.put k _ hL

theorem insert (l : Label) (v : Value)
    {arrange : Key × Field → List (Key × Field) → List (Key × Field)}
    (ha : ∀ e es, (arrange e es).Perm (e :: es)) : Moves (Keeps P) (insert env l v arrange) := by
  intro L hL
  by_cases hk : (L.key? l).isSome = true
  · simpa only [final, Ledger.insert, if_pos hk] using hL
  · by_cases hb : env.bars v = true
    · simpa only [final, Ledger.insert, if_neg hk, if_pos hb] using hL
    · simpa only [final, Ledger.insert, if_neg hk, if_neg hb] using h.enter _ ha hL

theorem addBefore (next : Key) (l : Label) (v : Value) :
    Moves (Keeps P) (addBefore env next l v) := by
  intro L hL
  by_cases hn : (L.field? next).isSome = true
  · simpa only [final, Ledger.addBefore, if_pos hn] using
      h.insert env l v (before_perm next) L hL
  · simpa only [final, Ledger.addBefore, if_neg hn] using hL

theorem replace (k : Key) (v : Value) : Moves (Keeps P) (replace env k v) := by
  intro L hL
  cases hf : L.field? k with
  | none => simpa only [final, Ledger.replace, hf] using hL
  | some f =>
    by_cases hb : env.bars v = true
    · simpa only [final, Ledger.replace, hf, if_pos hb] using hL
    · simpa only [final, Ledger.replace, hf, if_neg hb] using h.put k _ hL

theorem store (k : Key) (v : Value) : Moves (Keeps P) (store env k v) :=
  (h.replace env k v).discard.bind fun _ => moves_pure k

theorem assign (p : Place) (v : Value) : Moves (Keeps P) (assign env p v) := by
  intro L hL
  cases p with
  | label l =>
    cases hk : L.key? l with
    | some k => simpa only [final, Ledger.assign, hk] using h.store env k v L hL
    | none => simpa only [final, Ledger.assign, hk] using h.insert env l v last_perm L hL
  | key k =>
    by_cases hf : (L.field? k).isSome = true
    · simpa only [final, Ledger.assign, if_pos hf] using h.store env k v L hL
    · cases hb : env.below k with
      | none => simpa only [final, Ledger.assign, if_neg hf, hb] using hL
      | some bars =>
        by_cases hv : bars v = true
        · simpa only [final, Ledger.assign, if_neg hf, hb, if_pos hv] using hL
        · simpa only [final, Ledger.assign, if_neg hf, hb, if_neg hv] using hL

theorem clear (p : Place) : Moves (Keeps P) (clear env p) := by
  intro L hL
  cases p with
  | label l =>
    cases hk : L.key? l with
    | some k => simpa only [final, Ledger.clear, hk] using h.store env k .empty L hL
    | none => simpa only [final, Ledger.clear, hk] using hL
  | key k => exact h.assign env (.key k) .empty L hL

theorem change (k : Key) (l : Label) (v : Value) : Moves (Keeps P) (change env k l v) :=
  (h.relabel k l).bind fun _ => (h.replace env k v).discard

theorem assignAll (fields : List (Label × Value)) (ignore : List Label) :
    Moves (Keeps P) (assignAll env fields ignore) := by
  refine moves_forM _ fun e _ => ?_
  dsimp only
  split
  · exact moves_pure _
  · exact (h.assign env (.label e.1) e.2).discard

/-- Every operation keeps the property, provided that it is kept where a field is dropped. -/
theorem book_moves (op : ContainerOp) (hd : ∀ k, op = .remove k → ∀ L, P L → P (L.drop k)) :
    Moves (Keeps P) (op.book env) := by
  cases op with
  | add l v => exact (h.insert env l v last_perm).map _
  | addBefore next l v => exact (h.addBefore env next l v).map _
  | assign p v => exact (h.assign env p v).map _
  | replace k v => exact (h.replace env k v).map _
  | clear p => exact (h.clear env p).map _
  | relabel k l => exact (h.relabel k l).map _
  | change k l v => exact (h.change env k l v).map _
  | assignAll fields ignore => exact (h.assignAll env fields ignore).map _
  | remove k =>
    have hr : Moves (Keeps P) (Ledger.remove k) := by
      intro L hL
      cases hf : L.field? k with
      | none => simpa only [final, Ledger.remove, hf] using hL
      | some f => simpa only [final, Ledger.remove, hf] using hd k rfl L hL
    exact hr.map _

end Steady

section Keys

variable {L : Ledger} {k j : Key}

theorem keys_put (L : Ledger) (k : Key) (f : Field) : (L.put k f).keys = L.keys := by
  rw [keys, put, List.map_map]
  refine List.map_congr_left fun e _ => ?_
  by_cases he : e.1 = k <;> simp [he]

theorem mem_keys_enter {f : Field}
    {arrange : Key × Field → List (Key × Field) → List (Key × Field)}
    (ha : ∀ e es, (arrange e es).Perm (e :: es)) :
    k ∈ (L.enter f arrange).keys ↔ k = ⟨L.next⟩ ∨ k ∈ L.keys := by
  rw [keys, enter, ((ha _ _).map _).mem_iff, List.map_cons, List.mem_cons]
  rfl

theorem mem_keys_drop : k ∈ (L.drop j).keys ↔ k ≠ j ∧ k ∈ L.keys := by
  simp only [keys, drop, List.mem_map, List.mem_filter]
  constructor
  · rintro ⟨e, ⟨he, hne⟩, rfl⟩
    exact ⟨by simpa using hne, e, he, rfl⟩
  · rintro ⟨hne, e, he, rfl⟩
    exact ⟨e, ⟨he, by simpa using hne⟩, rfl⟩

theorem steady_mem (k : Key) : Steady fun L => k ∈ L.keys where
  put j f hL := by rwa [keys_put]
  enter f _ ha hL := (mem_keys_enter ha).mpr (.inr hL)

theorem steady_gone (k : Key) : Steady fun L => k.number < L.next ∧ k ∉ L.keys where
  put j f hL := by rwa [keys_put]
  enter f _ ha hL := by
    refine ⟨Nat.lt_succ_of_lt hL.1, fun hk => ?_⟩
    rcases (mem_keys_enter ha).mp hk with rfl | hk
    · exact Nat.lt_irrefl _ hL.1
    · exact hL.2 hk

end Keys

end Ledger

end LiveRecords

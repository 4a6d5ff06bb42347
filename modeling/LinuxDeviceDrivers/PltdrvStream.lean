import LinuxDeviceDrivers.OrderedStream
import LinuxDeviceDrivers.PltdrvFiles

/-!
# The byte streams of the pltdrv_attr_dt devices

As long as no device is removed and the user buffers can be accessed, each
device is a stream of its own: in the order of its `w_f_lock` the writes push
what finds room, in the order of its `r_f_lock` the reads pop. A call works on
the device whose `cdev` the inode of its handle names, so nothing gets from one
device to another.
-/
namespace LinuxDeviceDrivers.PltdrvStream
open KernelPrimitives TransitionSystem ThreadProgram FifoFileOps LockTurns OrderedStream PltdrvFiles

/-- No removal, and only user buffers that can be accessed. -/
def Regular (_ : State) (a : ℕ × Choice) : Prop :=
  match a.2 with
  | .remove _ => False
  | .call _ call => call.Accessible
  | _ => True

/-- The mutex that a call is inside of. -/
def inside : Pc → Option (ℕ × Mutex)
  | .op d _ call st => if st.inside then some (d, mutexOf call) else none
  | _ => none

/-- The mutex that a call is inside of or has been inside of. -/
def turnOf : Pc → Option (ℕ × Mutex)
  | .op d _ call st => if st.inside then some (d, mutexOf call) else none
  | .exit d _ call (.value _) | .returned d _ call (.value _) => some (d, mutexOf call)
  | _ => none

section Effects
variable {c d d' : ℕ} {m : Mutex} (s : Shared) (a : Action)

@[simp] theorem record_devcs : (s.record c d a).devcs = s.devcs := by
  cases a <;> rfl

theorem op_devcs_self : (effect c (.op d a) s).devcs d = a.apply c (s.devcs d) := by
  simp [effect, Shared.setDevc]

theorem op_devcs_of_ne (h : d ≠ d') : (effect c (.op d' a) s).devcs d = s.devcs d := by
  simp [effect, Shared.setDevc, h]

theorem op_turns_acquire : (effect c (.op d (.acquire m)) s).turns d m = s.turns d m ++ [c] := by
  simp [effect, Shared.record, Shared.setDevc]

theorem op_turns_of_ne (h : a ≠ .acquire m ∨ d ≠ d') :
    (effect c (.op d' a) s).turns d m = s.turns d m := by
  cases a with
  | acquire m' =>
      by_cases hd : d = d'
      · subst hd
        have hm : m ≠ m' := fun hm => h.elim (fun h => h (hm ▸ rfl)) fun h => h rfl
        simp [effect, Shared.record, Shared.setDevc, hm]
      · simp [effect, Shared.record, Shared.setDevc, hd]
  | _ => rfl

theorem op_owner_of_ne (hacq : a ≠ .acquire m ∨ d ≠ d') (hrel : a ≠ .release m ∨ d ≠ d') :
    ((effect c (.op d' a) s).devcs d).owner m = (s.devcs d).owner m := by
  by_cases hd : d = d'
  · subst hd
    rw [op_devcs_self]
    cases a with
    | acquire m' | release m' =>
        have hm : m ≠ m' := by
          rintro rfl
          simp at hacq hrel
        simp [Action.apply, hm]
    | _ => rfl
  · rw [op_devcs_of_ne s a hd]

theorem effect_mutexes {e : Effect} (h : ∀ d a, e ≠ .op d a) :
    ((effect c e s).devcs d).owner m = (s.devcs d).owner m ∧
      (effect c e s).turns d m = s.turns d m := by
  cases e with
  | op d' a => exact absurd rfl (h d' a)
  | kfifoFree d' =>
      refine ⟨?_, rfl⟩
      by_cases hd : d = d'
      · subst hd
        simp [effect, Shared.setDevc, Shared.setLife]
      · simp [effect, Shared.setDevc, Shared.setLife, hd]
  | _ => exact ⟨rfl, rfl⟩

end Effects

/-- What one move of thread `c` does to mutex `m` of device `d`. -/
inductive MutexUse (c d : ℕ) (m : Mutex) (s : Shared) (p : Pc) (s' : Shared) (p' : Pc) : Prop
  | none : (s'.devcs d).owner m = (s.devcs d).owner m → s'.turns d m = s.turns d m →
      (inside p' = some (d, m) ↔ inside p = some (d, m)) →
      (turnOf p' = some (d, m) ↔ turnOf p = some (d, m)) → MutexUse c d m s p s' p'
  | acquire : (s.devcs d).owner m = .none → (s'.devcs d).owner m = some c →
      s'.turns d m = s.turns d m ++ [c] → inside p = .none → inside p' = some (d, m) →
      turnOf p = .none → turnOf p' = some (d, m) → MutexUse c d m s p s' p'
  | release : (s'.devcs d).owner m = .none → s'.turns d m = s.turns d m →
      inside p = some (d, m) → inside p' = .none → turnOf p = some (d, m) →
      turnOf p' = some (d, m) → MutexUse c d m s p s' p'

section Mutexes
variable {c d : ℕ} {m : Mutex} {s : Shared} {k : Choice} {p p' : Pc} {e : Effect}

/-- A move that neither takes nor gives back mutex `m` of device `d`. -/
theorem mutexUse_op {d' : ℕ} {a : Action} (hacq : a ≠ .acquire m ∨ d ≠ d')
    (hrel : a ≠ .release m ∨ d ≠ d') (hin : inside p' = some (d, m) ↔ inside p = some (d, m))
    (hturn : turnOf p' = some (d, m) ↔ turnOf p = some (d, m)) :
    MutexUse c d m s p (effect c (.op d' a) s) p' :=
  .none (op_owner_of_ne s a hacq hrel) (op_turns_of_ne s a hacq) hin hturn

theorem mutexUse_frame (he : ∀ d a, e ≠ .op d a)
    (hin : inside p' = inside p) (hturn : turnOf p' = turnOf p) :
    MutexUse c d m s p (effect c e s) p' :=
  .none (effect_mutexes s he).1 (effect_mutexes s he).2 (by rw [hin]) (by rw [hturn])

/-- Another mutex, or a mutex of another device. -/
theorem elsewhere {d d' : ℕ} {m m' : Mutex} (h : ¬(d = d' ∧ m = m')) :
    some (d', m') ≠ some (d, m) ∧ (m' ≠ m ∨ d ≠ d') := by
  constructor
  · intro he
    cases he
    exact h ⟨rfl, rfl⟩
  · by_cases hd : d = d'
    · exact .inl fun hm => h ⟨hd, hm.symm⟩
    · exact .inr hd

theorem mutexUse (h : Edge s k p e p') (c d : ℕ) (m : Mutex) :
    MutexUse c d m s p (effect c e s) p' := by
  cases h with
  | op d' f call st st' a hop =>
      cases hop with
      | lock _ ho =>
          by_cases hdm : d = d' ∧ m = mutexOf call
          · obtain ⟨rfl, rfl⟩ := hdm
            refine .acquire ho ?_ (op_turns_acquire s) rfl rfl rfl rfl
            rw [op_devcs_self]
            exact Function.update_self _ _ _
          · obtain ⟨hne, hother⟩ := elsewhere hdm
            refine mutexUse_op ?_ (by simp) (iff_of_false hne nofun) (iff_of_false hne nofun)
            exact hother.imp_left fun hm he => hm (Action.acquire.inj he)
      | fromUser | toUser | publish | consume =>
          exact mutexUse_op (by simp) (by simp) Iff.rfl Iff.rfl
  | leave d' f call st a out hop =>
      obtain ⟨x, ret, rfl, rfl, rfl⟩ : ∃ x ret, st = .unlock x ∧ a = .release (mutexOf call) ∧
          out = .value ret := by
        cases hop <;> exact ⟨_, _, rfl, rfl, rfl⟩
      by_cases hdm : d = d' ∧ m = mutexOf call
      · obtain ⟨rfl, rfl⟩ := hdm
        refine .release ?_ (op_turns_of_ne s _ (by simp)) rfl rfl rfl rfl
        rw [op_devcs_self]
        exact Function.update_self _ _ _
      · obtain ⟨hne, hother⟩ := elsewhere hdm
        refine mutexUse_op (by simp) ?_ (iff_of_false nofun hne) Iff.rfl
        exact hother.imp_left fun hm he => hm (Action.release.inj he)
  | exit d' f call out => cases out <;> exact mutexUse_frame (by simp) rfl rfl
  | _ => exact mutexUse_frame (by simp) rfl rfl

end Mutexes

def fifoLock (d : ℕ) (m : Mutex) : Lock program where
  owner s := (s.devcs d).owner m
  holds p := inside p = some (d, m)
  others _ _ := Iff.rfl
  move := by
    intro s k p e p' c h
    show LockMove c ((s.devcs d).owner m) _ _ (((effect c e s).devcs d).owner m)
    cases mutexUse (edge_of_move h) c d m with
    | none howner _ hin _ => exact howner ▸ .stay hin
    | acquire ho howner _ hin hin' _ _ =>
        exact howner ▸ .acquire ho (by rw [hin]; nofun) hin'
    | release howner _ hin hin' _ _ => exact howner ▸ .release hin (by rw [hin']; nofun)

def fifoTurns (d : ℕ) (m : Mutex) : History (fifoLock d m) where
  order s := s.turns d m
  had p := turnOf p = some (d, m)
  others _ _ := Iff.rfl
  move := by
    intro s k p e p' c h
    show TurnMove c (s.turns d m) _ _ _ _ _ ((effect c e s).turns d m)
    cases mutexUse (edge_of_move h) c d m with
    | none _ horder hin hturn => exact horder ▸ .stay hin hturn
    | acquire ho _ horder _ _ hturn hturn' =>
        exact horder ▸ .begins ho (by rw [hturn]; nofun) hturn'
    | release _ horder hin _ hturn hturn' =>
        exact horder ▸ .keeps (fun _ => hin) (iff_of_true hturn' hturn)

section Runs
variable {s : State} {ok : State → ℕ × Choice → Prop}

theorem exclusive (h : system.ReachableWhen ok s) (d : ℕ) (m : Mutex) :
    (fifoLock d m).Exclusive s := by
  refine Lock.exclusive_reachable ?_ h
  rintro s ⟨devcs, _, rfl⟩ c hc
  cases hc

theorem turns (h : system.ReachableWhen ok s) (d : ℕ) (m : Mutex) : (fifoTurns d m).Turns s := by
  refine Program.invariant ?_ ?_ h
  · rintro s ⟨devcs, _, rfl⟩
    exact History.turns_start rfl nofun nofun
  · intro s c k e t hr hs _ he
    exact hs.step (exclusive hr d m) he

end Runs

/-- What a call moves when its copy finds the kfifo `fifo`: a write takes what finds
room, a read what is there. -/
def taken : Call → Kfifo → List UInt8
  | .write buf, fifo => buf.bytes.take (min buf.count fifo.avail)
  | .read buf, fifo => fifo.data.take (min buf.count fifo.data.length)

/-- The return value of a call that has moved `bytes`. A write reports its whole
buffer. -/
def reported : Call → List UInt8 → ℤ
  | .write buf, _ => buf.count
  | .read _, bytes => bytes.length

/-- Where a call stands and what it has copied. -/
def Progress (copied : Option (List UInt8)) : Pc → Prop
  | .op _ _ call .lock | .op _ _ call .copy => call.Accessible ∧ copied = none
  | .op _ _ _ (.commit x) => x.ret = 0 ∧ copied = none
  | .op _ _ _ (.unlock x) => x.ret = 0 ∧ copied = some x.bytes
  | .exit _ _ call (.value ret) | .returned _ _ call (.value ret) =>
      ∃ bytes, ret = reported call bytes ∧ copied = some bytes
  | _ => copied = none

section Calls
variable {c u : ℕ} {s : Shared} {k : Choice} {p p' : Pc} {e : Effect}

theorem effect_copied_other (hu : u ≠ c) : (effect c e s).copied u = s.copied u := by
  cases e with
  | op d a =>
      cases a with
      | publish | consume => exact Function.update_of_ne hu _ _
      | _ => rfl
  | _ => rfl

theorem progress_op {dev : FifoDevc} {d f : ℕ} {call : Call} {st st' : Stage} {a : Action}
    (h : FifoFileOps.Edge dev call st a (.inl st')) (hp : Progress (s.copied c) (.op d f call st)) :
    Progress ((effect c (.op d a) s).copied c) (.op d f call st') := by
  cases h with
  | lock => exact hp
  | fromUser buf => exact ⟨by rw [fromUser_accessible hp.1], hp.2⟩
  | toUser buf => exact ⟨by rw [toUser_accessible hp.1], hp.2⟩
  | publish buf x => exact ⟨hp.1, Function.update_self _ _ _⟩
  | consume buf x => exact ⟨hp.1, Function.update_self _ _ _⟩

theorem progress_edge (h : Edge s k p e p') (hreg : ∀ f call, k = .call f call → call.Accessible)
    (hp : Progress (s.copied c) p) : Progress ((effect c e s).copied c) p' := by
  cases h with
  | enter f d file call => exact ⟨hreg f call rfl, hp⟩
  | op d f call st st' a hop => exact progress_op hop hp
  | leave d f call st a out hop =>
      cases hop with
      | written buf x => exact ⟨x.bytes, by simp [hp.1, reported], hp.2⟩
      | taken buf x => exact ⟨x.bytes, by simp [hp.1, reported], hp.2⟩
  | signal d f call => exact hp.2
  | exit d f call out => cases out <;> exact hp
  | _ => exact hp

end Calls

/-- Every call is where its bytes say it is. -/
def Accounted (s : State) : Prop :=
  ∀ c, Progress (s.shared.copied c) (s.pc c)

/-- Nobody has begun to remove a device. -/
def Kept (s : State) : Prop := ∀ u d st, s.pc u ≠ .remove d st

/-- What a reader has copied out and not yet removed is still at the front. -/
def FrontCopied (s : State) : Prop :=
  ∀ c d f buf x, s.pc c = .op d f (.read buf) (.commit x) →
    x.bytes <+: (s.shared.devcs d).myfifo.data

section Runs
variable {s t : State} {c : ℕ} {k : Choice} {e : Effect}

theorem accounted (h : system.ReachableWhen Regular s) : Accounted s := by
  refine Program.invariant ?_ ?_ h
  · rintro s ⟨devcs, _, rfl⟩ c
    exact rfl
  · intro s c k e t _ hs hok he
    refine he.forall_threads hs ?_ ?_
    · rw [he.shared, program_effect]
      refine progress_edge (edge_of_step he) ?_ (hs c)
      rintro f call rfl
      exact hok
    · intro u hu hp
      rw [he.shared, program_effect, effect_copied_other hu]
      exact hp

theorem kept (h : system.ReachableWhen Regular s) : Kept s := by
  refine Program.invariant ?_ ?_ h
  · rintro s ⟨devcs, _, rfl⟩ u d st hp
    cases hp
  · intro s c k e t _ hs hok he u d st hp
    by_cases hu : u = c
    · subst hu
      have hedge := edge_of_step he
      have hold := hs u
      rw [hp] at hedge
      generalize s.pc u = p at hedge hold
      cases hedge with
      | unbind => exact hok
      | _ => exact hold _ _ rfl
    · rw [he.others u hu] at hp
      exact hs u d st hp

/-- The effect of a move on the bytes of a device: only a publish or a consume
of a call on this device changes them. -/
theorem data_step (hk : Kept s) (he : program.Step s c k e t) (d : ℕ) :
    (t.shared.devcs d).myfifo.data = (s.shared.devcs d).myfifo.data ∨
      (∃ bytes, e = .op d (.publish bytes) ∧
        (t.shared.devcs d).myfifo.data = (s.shared.devcs d).myfifo.data ++ bytes) ∨
      ∃ bytes, e = .op d (.consume bytes) ∧
        (t.shared.devcs d).myfifo.data = (s.shared.devcs d).myfifo.data.drop bytes.length := by
  rw [he.shared, program_effect]
  cases e with
  | op d' a =>
      by_cases hd : d = d'
      · subst hd
        rw [op_devcs_self]
        cases a with
        | publish bytes => exact .inr (.inl ⟨bytes, rfl, rfl⟩)
        | consume bytes => exact .inr (.inr ⟨bytes, rfl, rfl⟩)
        | _ => exact .inl rfl
      · rw [op_devcs_of_ne _ _ hd]
        exact .inl rfl
  | kfifoFree d' => exact absurd (edge_kfifoFree (edge_of_step he)).1 (hk c _ _)
  | _ => exact .inl rfl

end Runs

section Transfers
variable {s : Shared} {k : Choice} {p p' : Pc} {d : ℕ} {bytes : List UInt8}

theorem edge_publish (h : Edge s k p (.op d (.publish bytes)) p') :
    ∃ f buf x, p = .op d f (.write buf) (.commit x) ∧ bytes = x.bytes := by
  generalize he : Effect.op d (.publish bytes) = e at h
  cases h with
  | op d' f call st st' a hop =>
      cases he
      cases hop
      exact ⟨_, _, _, rfl, rfl⟩
  | leave d' f call st a out hop =>
      cases he
      cases hop
  | _ => cases he

theorem edge_consume (h : Edge s k p (.op d (.consume bytes)) p') :
    ∃ f buf x, p = .op d f (.read buf) (.commit x) ∧ bytes = x.bytes := by
  generalize he : Effect.op d (.consume bytes) = e at h
  cases h with
  | op d' f call st st' a hop =>
      cases he
      cases hop
      exact ⟨_, _, _, rfl, rfl⟩
  | leave d' f call st a out hop =>
      cases he
      cases hop
  | _ => cases he

theorem edge_acquire {m : Mutex} (h : Edge s k p (.op d (.acquire m)) p') :
    ∃ f call, p = .op d f call .lock := by
  generalize he : Effect.op d (.acquire m) = e at h
  cases h with
  | op d' f call st st' a hop =>
      cases he
      cases hop
      exact ⟨_, _, rfl⟩
  | leave d' f call st a out hop =>
      cases he
      cases hop
  | _ => cases he

/-- The reader that has just copied has seen the front of the kfifo. -/
theorem edge_copied {e : Effect} {f : ℕ} {buf : ReadBuf} {x : Transfer}
    (h : Edge s k p e (.op d f (.read buf) (.commit x))) :
    e = .op d .skip ∧ x.bytes <+: (s.devcs d).myfifo.data := by
  cases h with
  | op _ _ _ st st' a hop =>
      cases hop
      refine ⟨rfl, ?_⟩
      rw [Kfifo.toUser_prefix]
      exact List.take_prefix _ _

end Transfers

section Streams
variable {s t : State} {c : ℕ} {k : Choice} {e : Effect}

theorem FrontCopied.step (h : FrontCopied s) (hk : Kept s)
    (hx : ∀ d, (fifoLock d .rFLock).Exclusive s) (he : program.Step s c k e t) :
    FrontCopied t := by
  intro u d f buf x hp
  by_cases hu : u = c
  · subst hu
    obtain ⟨rfl, hx⟩ := edge_copied (hp ▸ edge_of_step he)
    rw [he.shared, program_effect, op_devcs_self]
    exact hx
  · rw [he.others u hu, program_others] at hp
    have hold := h u d f buf x hp
    rcases data_step hk he d with hsame | ⟨bytes, _, hpush⟩ | ⟨bytes, rfl, _⟩
    · exact hsame ▸ hold
    · exact hpush ▸ hold.trans (List.prefix_append _ _)
    · -- two readers of one device are never both inside `r_f_lock`
      obtain ⟨f', buf', x', hc, _⟩ := edge_consume (edge_of_step he)
      have hin : inside (s.pc u) = some (d, .rFLock) := by rw [hp]; rfl
      have hin' : inside (s.pc c) = some (d, .rFLock) := by rw [hc]; rfl
      exact absurd ((hx d).unique hin hin') hu

theorem frontCopied (h : system.ReachableWhen Regular s) : FrontCopied s := by
  refine Program.invariant ?_ ?_ h
  · rintro s ⟨devcs, _, rfl⟩ u d f buf x hp
    cases hp
  · intro s c k e t hr hs _ he
    exact hs.step (kept hr) (fun d => exclusive hr d .rFLock) he

def moved (s : State) (c : ℕ) : List UInt8 := (s.shared.copied c).getD []

/-- What has gone through a device, by the turns of its calls. -/
def stream (s : State) (d : ℕ) : Stream UInt8 where
  sent := (s.shared.turns d .wFLock).flatMap (moved s)
  received := (s.shared.turns d .rFLock).flatMap (moved s)
  queue := (s.shared.devcs d).myfifo.data

theorem notMem_turns {d d' : ℕ} {m m' : Mutex} (ht : (fifoTurns d m).Turns s)
    (hturn : turnOf (s.pc c) = some (d', m')) (hne : ¬(d = d' ∧ m = m')) :
    c ∉ s.shared.turns d m := fun hc => by
  have hd : turnOf (s.pc c) = some (d, m) := (ht.had c).mp hc
  rw [hturn] at hd
  cases hd
  exact hne ⟨rfl, rfl⟩

theorem moved_of_copied {bytes : List UInt8}
    (h : t.shared.copied = Function.update s.shared.copied c (some bytes)) :
    moved t = Function.update (moved s) c bytes := by
  funext u
  rw [moved, h]
  by_cases hu : u = c
  · subst hu
    rw [Function.update_self, Function.update_self]
    rfl
  · rw [Function.update_of_ne hu, Function.update_of_ne hu]
    rfl

theorem Accounted.moved_commit (ha : Accounted s) {d f : ℕ} {call : Call} {x : Transfer}
    (hp : s.pc c = .op d f call (.commit x)) : moved s c = [] := by
  have h := ha c
  rw [hp] at h
  rw [moved, h.2]
  rfl

/-- A turn opens with nothing copied. -/
theorem stream_acquire {d d' : ℕ} {m : Mutex} (ha : Accounted s)
    (he : program.Step s c k (.op d' (.acquire m)) t) : stream t d = stream s d := by
  obtain ⟨f, call, hp⟩ := edge_acquire (edge_of_step he)
  have hempty : moved s c = [] := by
    have h := ha c
    rw [hp] at h
    rw [moved, h.2]
    rfl
  have hmoved : moved t = moved s := by
    funext u
    rw [moved, he.shared]
    rfl
  have hflat : ∀ m', (t.shared.turns d m').flatMap (moved s) =
      (s.shared.turns d m').flatMap (moved s) := by
    intro m'
    rw [he.shared, program_effect]
    by_cases hdm : d = d' ∧ m' = m
    · obtain ⟨rfl, rfl⟩ := hdm
      rw [op_turns_acquire, flatMap_turn hempty]
    · rw [op_turns_of_ne]
      by_cases hd : d = d'
      · left
        rintro hm
        cases hm
        exact hdm ⟨hd, rfl⟩
      · exact .inr hd
  have hdata : (t.shared.devcs d).myfifo = (s.shared.devcs d).myfifo := by
    rw [he.shared, program_effect]
    by_cases hd : d = d'
    · subst hd
      rw [op_devcs_self]
      rfl
    · rw [op_devcs_of_ne _ _ hd]
  simp only [stream, hmoved, hflat, hdata]

/-- A transfer of a call on another device. -/
theorem stream_elsewhere {d d' : ℕ} {m : Mutex} {bytes : List UInt8} (hd : d ≠ d')
    (ht : ∀ d m, (fifoTurns d m).Turns s) (hturn : turnOf (s.pc c) = some (d', m))
    (hmoved : moved t = Function.update (moved s) c bytes)
    (hturns : t.shared.turns = s.shared.turns) (hdevc : t.shared.devcs d = s.shared.devcs d) :
    stream t d = stream s d := by
  have hflat : ∀ m', (s.shared.turns d m').flatMap (Function.update (moved s) c bytes) =
      (s.shared.turns d m').flatMap (moved s) := fun m' =>
    flatMap_update_of_notMem (notMem_turns (ht d m') hturn fun h => hd h.1) bytes
  simp only [stream, hmoved, hturns, hdevc, hflat]

theorem stream_publish {d d' : ℕ} {bytes : List UInt8} (ha : Accounted s)
    (ht : ∀ d m, (fifoTurns d m).Turns s)
    (he : program.Step s c k (.op d' (.publish bytes)) t) :
    Stream.Step (stream s d) (stream t d) := by
  obtain ⟨f, buf, x, hp, hbytes⟩ := edge_publish (edge_of_step he)
  have hturn : turnOf (s.pc c) = some (d', .wFLock) := by rw [hp]; rfl
  have hmoved : moved t = Function.update (moved s) c bytes :=
    moved_of_copied (by rw [he.shared]; rfl)
  have hturns : t.shared.turns = s.shared.turns := by rw [he.shared]; rfl
  by_cases hd : d = d'
  · subst hd
    obtain ⟨pre, horder, hpre⟩ : ∃ pre, s.shared.turns d .wFLock = pre ++ [c] ∧ c ∉ pre :=
      (ht d .wFLock).last_new (show inside (s.pc c) = some (d, .wFLock) by rw [hp]; rfl)
    have hread := notMem_turns (ht d .rFLock) hturn (by simp)
    have hdata : (t.shared.devcs d).myfifo.data = (s.shared.devcs d).myfifo.data ++ bytes := by
      rw [he.shared, program_effect, op_devcs_self]
      rfl
    have hstream : stream t d =
        ⟨(stream s d).sent ++ bytes, (stream s d).received, (stream s d).queue ++ bytes⟩ := by
      simp only [stream, hmoved, hturns, hdata]
      rw [flatMap_update_last horder hpre (ha.moved_commit hp), flatMap_update_of_notMem hread]
    exact hstream ▸ .push bytes
  · have hdevc : t.shared.devcs d = s.shared.devcs d := by
      rw [he.shared, program_effect, op_devcs_of_ne _ _ hd]
    exact stream_elsewhere hd ht hturn hmoved hturns hdevc ▸ .stay

theorem stream_consume {d d' : ℕ} {bytes : List UInt8} (ha : Accounted s) (hf : FrontCopied s)
    (ht : ∀ d m, (fifoTurns d m).Turns s) (he : program.Step s c k (.op d' (.consume bytes)) t) :
    Stream.Step (stream s d) (stream t d) := by
  obtain ⟨f, buf, x, hp, rfl⟩ := edge_consume (edge_of_step he)
  have hturn : turnOf (s.pc c) = some (d', .rFLock) := by rw [hp]; rfl
  have hmoved : moved t = Function.update (moved s) c x.bytes :=
    moved_of_copied (by rw [he.shared]; rfl)
  have hturns : t.shared.turns = s.shared.turns := by rw [he.shared]; rfl
  by_cases hd : d = d'
  · subst hd
    obtain ⟨pre, horder, hpre⟩ : ∃ pre, s.shared.turns d .rFLock = pre ++ [c] ∧ c ∉ pre :=
      (ht d .rFLock).last_new (show inside (s.pc c) = some (d, .rFLock) by rw [hp]; rfl)
    have hwrite := notMem_turns (ht d .wFLock) hturn (by simp)
    obtain ⟨rest, hrest⟩ := hf c d f buf x hp
    have hdata : (t.shared.devcs d).myfifo.data = rest := by
      rw [he.shared, program_effect, op_devcs_self]
      show (s.shared.devcs d).myfifo.data.drop x.bytes.length = rest
      rw [← hrest, List.drop_left]
    have hstream : stream t d = ⟨(stream s d).sent, (stream s d).received ++ x.bytes, rest⟩ := by
      simp only [stream, hmoved, hturns, hdata]
      rw [flatMap_update_last horder hpre (ha.moved_commit hp), flatMap_update_of_notMem hwrite]
    rw [hstream]
    exact .pop x.bytes rest hrest.symm
  · have hdevc : t.shared.devcs d = s.shared.devcs d := by
      rw [he.shared, program_effect, op_devcs_of_ne _ _ hd]
    exact stream_elsewhere hd ht hturn hmoved hturns hdevc ▸ .stay

/-- One step of any call is a push, a pop or no change of each device. -/
theorem stream_step (ha : Accounted s) (hf : FrontCopied s) (hk : Kept s)
    (ht : ∀ d m, (fifoTurns d m).Turns s) (he : program.Step s c k e t) (d : ℕ) :
    Stream.Step (stream s d) (stream t d) := by
  have hstay : t.shared.copied = s.shared.copied → t.shared.turns = s.shared.turns →
      (∀ bytes, e ≠ .op d (.publish bytes)) → (∀ bytes, e ≠ .op d (.consume bytes)) →
      Stream.Step (stream s d) (stream t d) := by
    intro hcopied hturns hpush hpop
    have hmoved : moved t = moved s := by
      funext u
      rw [moved, hcopied]
      rfl
    have hdata : (t.shared.devcs d).myfifo.data = (s.shared.devcs d).myfifo.data := by
      rcases data_step hk he d with hsame | ⟨bytes, h, _⟩ | ⟨bytes, h, _⟩
      · exact hsame
      · exact absurd h (hpush bytes)
      · exact absurd h (hpop bytes)
    have hstream : stream t d = stream s d := by
      simp only [stream, hmoved, hturns, hdata]
    exact hstream ▸ .stay
  cases e with
  | op d' a =>
      cases a with
      | acquire m => exact stream_acquire ha he ▸ .stay
      | publish bytes => exact stream_publish ha ht he
      | consume bytes => exact stream_consume ha hf ht he
      | skip | release =>
          exact hstay (by rw [he.shared]; rfl) (by rw [he.shared]; rfl) (by simp) (by simp)
  | _ => exact hstay (by rw [he.shared]; rfl) (by rw [he.shared]; rfl) (by simp) (by simp)

theorem stream_intact (h : system.ReachableWhen Regular s) (d : ℕ) : (stream s d).Intact := by
  refine Program.invariant (I := fun s => (stream s d).Intact) ?_ ?_ h
  · rintro s ⟨devcs, hdevcs, rfl⟩
    obtain ⟨dev, mem, hdev⟩ := hdevcs d
    exact PltdrvProbe.setupPltdrvDev_data hdev
  · intro s c k e t hr hs _ he
    exact hs.step (stream_step (accounted hr) (frontCopied hr) (kept hr) (turns hr) he d)

end Streams

/-- The device, the handle and the arguments of a call. -/
def callOf : Pc → Option (ℕ × ℕ × Call)
  | .op d f call _ | .exit d f call _ | .returned d f call _ => some (d, f, call)
  | _ => none

/-- A handle leads to the device whose `cdev` its inode names. -/
structure Handles (s : State) : Prop where
  data : ∀ f file d, s.shared.files f = some file → file.privateData = some d →
    containerOf file.iCdev = d
  opening : ∀ u f iCdev, s.pc u = .opening f iCdev →
    ∃ file, s.shared.files f = some file ∧ file.iCdev = iCdev
  calls : ∀ u d f call, callOf (s.pc u) = some (d, f, call) →
    ∃ file, s.shared.files f = some file ∧ containerOf file.iCdev = d

section Files
variable {c f g : ℕ} {s : Shared} {k : Choice} {p p' : Pc} {e : Effect} {file : File}

theorem setFile_iCdev {upd : File → File} (hupd : ∀ file, (upd file).iCdev = file.iCdev)
    (hf : s.files f = some file) :
    ∃ file', (s.setFile g upd).files f = some file' ∧ file'.iCdev = file.iCdev := by
  by_cases hfg : f = g
  · subst hfg
    exact ⟨upd file, by simp [Shared.setFile, hf], hupd file⟩
  · exact ⟨file, by simp [Shared.setFile, hfg, hf], rfl⟩

/-- A file keeps its inode. -/
theorem files_edge (h : Edge s k p e p') (hf : s.files f = some file) :
    ∃ file', (effect c e s).files f = some file' ∧ file'.iCdev = file.iCdev := by
  cases h with
  | openInode g d hnone =>
      have hfg : f ≠ g := by
        rintro rfl
        exact absurd (hf.symm.trans hnone) nofun
      exact ⟨file, by simp [effect, hfg, hf], rfl⟩
  | openFifo | close | enter | exit => exact setFile_iCdev (fun _ => rfl) hf
  | op _ _ _ _ _ a | leave _ _ _ _ a =>
      cases a <;> exact ⟨file, hf, rfl⟩
  | _ => exact ⟨file, hf, rfl⟩

theorem setFile_cases {upd : File → File} (h : (s.setFile g upd).files f = some file) :
    s.files f = some file ∨ f = g ∧ ∃ old, s.files f = some old ∧ file = upd old := by
  by_cases hfg : f = g
  · subst hfg
    obtain ⟨old, hold, heq⟩ := Option.map_eq_some_iff.mp
      ((Function.update_self f _ s.files).symm.trans h)
    exact .inr ⟨rfl, old, hold, heq.symm⟩
  · exact .inl ((Function.update_of_ne hfg _ s.files).symm.trans h)

theorem data_setFile {upd : File → File} (hupd : ∀ file, (upd file).iCdev = file.iCdev ∧
      (upd file).privateData = file.privateData)
    (hs : ∀ f file d, s.files f = some file → file.privateData = some d →
      containerOf file.iCdev = d) {d : ℕ} (hf : (s.setFile g upd).files f = some file)
    (hd : file.privateData = some d) : containerOf file.iCdev = d := by
  rcases setFile_cases hf with hold | ⟨_, old, hold, rfl⟩
  · exact hs f file d hold hd
  · rw [(hupd old).1]
    exact hs f old d hold ((hupd old).2 ▸ hd)

/-- Only `pltdrv_open_fifo` sets `private_data`, to the container of the `cdev`. -/
theorem data_edge (h : Edge s k p e p')
    (hs : ∀ f file d, s.files f = some file → file.privateData = some d →
      containerOf file.iCdev = d)
    (hopen : ∀ f iCdev, p = .opening f iCdev → ∃ file, s.files f = some file ∧ file.iCdev = iCdev)
    {d : ℕ} (hf : (effect c e s).files f = some file) (hd : file.privateData = some d) :
    containerOf file.iCdev = d := by
  cases h with
  | openInode g d' _ =>
      by_cases hfg : f = g
      · subst hfg
        simp only [effect, Function.update_self] at hf
        cases hf
        cases hd
      · simp only [effect, Function.update_of_ne hfg] at hf
        exact hs f file d hf hd
  | openFifo g iCdev =>
      rcases setFile_cases hf with hold | ⟨rfl, old, hold, rfl⟩
      · exact hs f file d hold hd
      · obtain ⟨file', hfile', rfl⟩ := hopen f iCdev rfl
        rw [hold] at hfile'
        cases hfile'
        exact Option.some.inj hd
  | close | enter | exit =>
      refine data_setFile ?_ hs hf hd
      exact fun _ => ⟨rfl, rfl⟩
  | op _ _ _ _ _ a | leave _ _ _ _ a => cases a <;> exact hs f file d hf hd
  | _ => exact hs f file d hf hd

/-- A new call is on the device of its handle; an old one keeps both. -/
theorem callOf_edge (h : Edge s k p e p') {d : ℕ} {call : Call}
    (hc : callOf p' = some (d, f, call)) :
    callOf p = some (d, f, call) ∨
      ∃ file, s.files f = some file ∧ file.privateData = some d := by
  cases h with
  | enter f' d' file call' hfile hdata => cases hc; exact .inr ⟨file, hfile, hdata⟩
  | op | leave | signal | exit => exact .inl hc
  | _ => cases hc

end Files

section Ownership
variable {s t : State} {c : ℕ} {k : Choice} {e : Effect}

theorem Handles.step (h : Handles s) (he : program.Step s c k e t) : Handles t where
  data f file d hf hd := by
    rw [he.shared, program_effect] at hf
    exact data_edge (edge_of_step he) h.data (h.opening c) hf hd
  opening u f iCdev hp := by
    have hedge := edge_of_step he
    rw [he.shared, program_effect]
    by_cases hu : u = c
    · subst hu
      rw [hp] at hedge
      generalize s.pc u = p at hedge
      cases hedge with
      | openInode _ d => exact ⟨_, Function.update_self _ _ _, rfl⟩
    · rw [he.others u hu, program_others] at hp
      obtain ⟨file, hfile, rfl⟩ := h.opening u f iCdev hp
      exact files_edge hedge hfile
  calls u d f call hc := by
    have hedge := edge_of_step he
    rw [he.shared, program_effect]
    obtain ⟨file, hfile, rfl⟩ : ∃ file, s.shared.files f = some file ∧
        containerOf file.iCdev = d := by
      by_cases hu : u = c
      · subst hu
        rcases callOf_edge hedge hc with hold | ⟨file, hfile, hdata⟩
        · exact h.calls u d f call hold
        · exact ⟨file, hfile, h.data f file d hfile hdata⟩
      · rw [he.others u hu, program_others] at hc
        exact h.calls u d f call hc
    obtain ⟨file', hfile', hcdev⟩ := files_edge (c := c) hedge hfile
    exact ⟨file', hfile', by rw [hcdev]⟩

theorem handles {ok : State → ℕ × Choice → Prop} (h : system.ReachableWhen ok s) : Handles s := by
  refine Program.invariant ?_ ?_ h
  · rintro s ⟨devcs, _, rfl⟩
    exact ⟨nofun, nofun, nofun⟩
  · intro s c k e t _ hs _ he
    exact hs.step he

end Ownership

section Copies
variable (s : State) (as : List (ℕ × Choice)) (c d : ℕ)

/-- In the run from `s` under `as`, call `c` makes its copy while the kfifo of device
`d` is `fifo`. -/
def CopiesFrom (call : Call) (fifo : Kfifo) : Prop :=
  ∃ u w f, system.Takes s as u (c, .run) w ∧ u.pc c = .op d f call .copy ∧
    (u.shared.devcs d).myfifo = fifo

/-- What came out of the device, in the order of `r_f_lock`, followed by what is
still in its kfifo, is what its writes put in, in the order of `w_f_lock`. A call
moves what the kfifo of its own device admits at its copy. Both orders hold each
call once, only calls on handles of this device, and every call that has moved
its bytes. -/
structure DeviceStream (t : State) : Prop where
  stream : (t.shared.turns d .rFLock).flatMap (moved t) ++ (t.shared.devcs d).myfifo.data =
    (t.shared.turns d .wFLock).flatMap (moved t)
  copies : ∀ c f call bytes, callOf (t.pc c) = some (d, f, call) →
    t.shared.copied c = some bytes →
    c ∈ t.shared.turns d (mutexOf call) ∧ ∃ fifo, CopiesFrom s as c d call fifo ∧
      bytes = taken call fifo
  returned : ∀ c f call ret, t.pc c = .returned d f call (.value ret) →
    ∃ bytes, t.shared.copied c = some bytes ∧ ret = reported call bytes
  once : ∀ m, (t.shared.turns d m).Nodup
  own : ∀ m c, c ∈ t.shared.turns d m → ∃ f call file, callOf (t.pc c) = some (d, f, call) ∧
    mutexOf call = m ∧ t.shared.files f = some file ∧ containerOf file.iCdev = d

/-- What a call carries to its end is what it has copied. -/
def Sampled (copied : Option (List UInt8)) : Pc → Prop
  | .op d _ call (.commit x) => ∃ fifo, CopiesFrom s as c d call fifo ∧ x.bytes = taken call fifo
  | .op d _ call (.unlock _) | .exit d _ call (.value _) | .returned d _ call (.value _) =>
      ∃ fifo, CopiesFrom s as c d call fifo ∧ copied = some (taken call fifo)
  | _ => True

end Copies

section Sampling
variable {s t u w : State} {as : List (ℕ × Choice)} {c d : ℕ} {k : Choice} {e : Effect}

theorem CopiesFrom.append {call : Call} {fifo : Kfifo} (h : CopiesFrom s as c d call fifo)
    (bs : List (ℕ × Choice)) : CopiesFrom s (as ++ bs) c d call fifo := by
  obtain ⟨u, w, f, htakes, hcopy⟩ := h
  exact ⟨u, w, f, htakes.append bs, hcopy⟩

theorem Sampled.append {copied : Option (List UInt8)} {p : Pc} (h : Sampled s as c copied p)
    (bs : List (ℕ × Choice)) : Sampled s (as ++ bs) c copied p := by
  have hmono : ∀ {d call} {q : Kfifo → Prop}, (∃ fifo, CopiesFrom s as c d call fifo ∧ q fifo) →
      ∃ fifo, CopiesFrom s (as ++ bs) c d call fifo ∧ q fifo := by
    rintro d call q ⟨fifo, hcopy, hq⟩
    exact ⟨fifo, hcopy.append bs, hq⟩
  cases p with
  | op d f call st =>
      cases st with
      | lock | copy => trivial
      | commit | unlock => exact hmono h
  | exit d f call out | returned d f call out =>
      cases out with
      | interrupted => trivial
      | value => exact hmono h
  | _ => trivial

/-- A call that has just moved: its copy samples the kfifo, and its next move puts
these bytes in or takes them out. -/
theorem Sampled.step (h : Sampled s as c (u.shared.copied c) (u.pc c))
    (hp : Progress (u.shared.copied c) (u.pc c)) (he : program.Step u c k e w)
    (hlast : system.Takes s (as ++ [(c, k)]) u (c, k) w) :
    Sampled s (as ++ [(c, k)]) c (w.shared.copied c) (w.pc c) := by
  have hold := h.append [(c, k)]
  have hedge := edge_of_step he
  rw [he.shared, program_effect]
  generalize hpc : u.pc c = p at hold hedge hp
  generalize w.pc c = p' at hedge ⊢
  cases hedge with
  | op d f call st st' a hop =>
      cases hop with
      | lock => trivial
      | fromUser buf =>
          exact ⟨_, ⟨u, w, f, hlast, hpc, rfl⟩, by rw [fromUser_accessible hp.1]; rfl⟩
      | toUser buf =>
          exact ⟨_, ⟨u, w, f, hlast, hpc, rfl⟩, by rw [toUser_accessible hp.1]; rfl⟩
      | publish buf x | consume buf x =>
          obtain ⟨fifo, hcopy, hx⟩ := hold
          exact ⟨fifo, hcopy, hx ▸ Function.update_self _ _ _⟩
  | leave d f call st a out hop => cases hop <;> exact hold
  | exit d f call out =>
      cases out with
      | interrupted => trivial
      | value => exact hold
  | _ => trivial

theorem sampled (hs : ∃ devcs, SetUp devcs ∧ s = initial devcs) (hok : system.Meets Regular s as)
    (hrun : system.run s as = some t) (c : ℕ) : Sampled s as c (t.shared.copied c) (t.pc c) := by
  have hstart : system.ReachableWhen Regular s := .start hs
  refine System.run_history (I := fun as t => ∀ c, Sampled s as c (t.shared.copied c) (t.pc c))
    hok hrun ?_ ?_ c
  · obtain ⟨devcs, -, rfl⟩ := hs
    exact fun c => trivial
  · rintro as u ⟨c, k⟩ w hmeets hu h _ hn
    obtain ⟨e, he⟩ := Program.step_of_next hn
    refine he.forall_threads h ?_ fun v hv hp => ?_
    · exact (h c).step (accounted (hstart.run hmeets hu) c) he (System.takes_last hu hn)
    · rw [he.shared, program_effect, effect_copied_other hv]
      exact hp.append _

end Sampling

section Summary
variable {s t : State} {as : List (ℕ × Choice)} {d f : ℕ}

/-- A call that has moved its bytes has had its turn. -/
theorem Progress.turn {copied : Option (List UInt8)} {p : Pc} {call : Call}
    (h : Progress copied p) (hc : callOf p = some (d, f, call)) (hcopied : copied ≠ none) :
    turnOf p = some (d, mutexOf call) := by
  cases p with
  | op d' f' call' st =>
      cases hc
      cases st with
      | lock => exact absurd h.2 hcopied
      | _ => rfl
  | exit d' f' call' out | returned d' f' call' out =>
      cases hc
      cases out with
      | interrupted => exact absurd h hcopied
      | value ret => rfl
  | _ => cases hc

/-- A call that has moved its bytes has moved those of its copy. -/
theorem Sampled.copies {c : ℕ} {bytes : List UInt8} {p : Pc} {call : Call}
    (h : Sampled s as c (some bytes) p) (hp : Progress (some bytes) p)
    (hc : callOf p = some (d, f, call)) :
    ∃ fifo, CopiesFrom s as c d call fifo ∧ bytes = taken call fifo := by
  have hsome : ∀ {d call}, (∃ fifo, CopiesFrom s as c d call fifo ∧
      some bytes = some (taken call fifo)) →
      ∃ fifo, CopiesFrom s as c d call fifo ∧ bytes = taken call fifo := by
    rintro d call ⟨fifo, hcopy, htaken⟩
    exact ⟨fifo, hcopy, Option.some.inj htaken⟩
  cases p with
  | op d' f' call' st =>
      cases hc
      cases st with
      | lock | copy | commit => exact absurd hp.2 nofun
      | unlock => exact hsome h
  | exit d' f' call' out | returned d' f' call' out =>
      cases hc
      cases out with
      | interrupted => exact absurd hp nofun
      | value => exact hsome h
  | _ => cases hc

theorem callOf_of_turn {p : Pc} {m : Mutex} (h : turnOf p = some (d, m)) :
    ∃ f call, callOf p = some (d, f, call) ∧ mutexOf call = m := by
  unfold turnOf at h
  split at h
  · split_ifs at h
    cases h
    exact ⟨_, _, rfl, rfl⟩
  · cases h
    exact ⟨_, _, rfl, rfl⟩
  · cases h
    exact ⟨_, _, rfl, rfl⟩
  · cases h

/-- In every run without removals and faults, every device is its own stream. -/
theorem deviceStream_of_regular (hs : ∃ devcs, SetUp devcs ∧ s = initial devcs)
    (hok : system.Meets Regular s as) (hrun : system.run s as = some t) (d : ℕ) :
    DeviceStream s as d t := by
  have ht : system.ReachableWhen Regular t := System.ReachableWhen.run (.start hs) hok hrun
  refine ⟨stream_intact ht d, fun c f call bytes hc hbytes => ⟨?_, ?_⟩, fun c f call ret hp => ?_,
    fun m => (turns ht d m).nodup, fun m c hc => ?_⟩
  · refine ((turns ht d (mutexOf call)).had c).mpr ((accounted ht c).turn hc ?_)
    rw [hbytes]
    nofun
  · have hsampled := sampled hs hok hrun c
    have hprogress := accounted ht c
    rw [hbytes] at hsampled hprogress
    exact hsampled.copies hprogress hc
  · have hprogress := accounted ht c
    rw [hp] at hprogress
    obtain ⟨bytes, hret, hbytes⟩ := hprogress
    exact ⟨bytes, hbytes, hret⟩
  · obtain ⟨f, call, hcall, hm⟩ := callOf_of_turn (((turns ht d m).had c).mp hc)
    obtain ⟨file, hfile, hcdev⟩ := (handles ht).calls c d f call hcall
    exact ⟨f, call, file, hcall, hm, hfile, hcdev⟩

end Summary

/-- Two devices and four overlapping calls: two writes on the first, of which the
second finds room for two of its three bytes, a write on the other, and a read on
the first that copies between them. -/
def twoDevices : List (ℕ × Choice) :=
  [(0, .openInode 0 0), (0, .run), (1, .openInode 1 1), (1, .run),
    (2, .call 0 (.write ⟨List.replicate 14 1, 14⟩)), (3, .call 1 (.write ⟨[3, 4, 5], 3⟩)),
    (4, .call 0 (.write ⟨[7, 8, 9], 3⟩)), (5, .call 0 (.read ⟨15, 15⟩))] ++ steps 2 3 ++
    steps 3 4 ++ steps 2 1 ++ steps 4 2 ++ steps 5 2 ++ steps 4 3 ++ steps 5 3 ++ steps 3 1

theorem deviceStream_of_regular_twoDevices :
    ∃ t, system.run (initial fun _ => defaultDevc) twoDevices = some t ∧
      t.pc 4 = .returned 0 0 (.write ⟨[7, 8, 9], 3⟩) (.value 3) ∧
      t.shared.copied 4 = some [7, 8] ∧ t.shared.copied 5 = some (List.replicate 14 1) ∧
      (t.shared.devcs 0).myfifo.data = [7, 8] ∧ (t.shared.devcs 1).myfifo.data = [3, 4, 5] ∧
      ∀ d, DeviceStream (initial fun _ => defaultDevc) twoDevices d t := by
  have hregular : system.Meets Regular (initial fun _ => defaultDevc) twoDevices :=
    System.meets_of_forall (by simp [twoDevices, steps, Regular, Call.Accessible, WriteBuf.count]) _
  exact ⟨_, rfl, rfl, rfl, rfl, rfl, rfl,
    deviceStream_of_regular ⟨_, setUp_default, rfl⟩ hregular rfl⟩

end LinuxDeviceDrivers.PltdrvStream

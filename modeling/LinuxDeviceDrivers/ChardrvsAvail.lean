import LinuxDeviceDrivers.ChardrvsStream

/-!
# The cached free space of chardrvs

`dev->avail` is a copy of the free space of the kfifo. A call changes the kfifo
under `r_f_lock` or `w_f_lock`, drops that mutex, and only then takes `lock`,
loads the free space and stores it. So the copy may be wrong as long as some
call that changed the kfifo has not stored yet.

`Tracks` says how wrong it may be. It is proved once for a relation between the
copy and the free space and for a choice of the calls whose changes can break
that relation, and used twice: the copy is never too large unless a write is
still to refresh it, and it is exact unless some transfer is.
-/
namespace LinuxDeviceDrivers.ChardrvsAvail
open KernelPrimitives TransitionSystem ThreadProgram ChardrvsFifo ChardrvsLocks ChardrvsStream

/-- The call has changed the kfifo and has not loaded the free space since. -/
def unloaded : Pc → Option Call
  | .write buf (.unlock _) => some (.write buf)
  | .read buf (.wakeUp _) | .read buf (.unlock _) => some (.read buf)
  | .refresh call _ .lock | .refresh call _ .load => some call
  | _ => none

/-- The value a call is about to store in `dev->avail`. -/
def loaded : Pc → Option (Call × ℕ)
  | .refresh call _ (.store v) => some (call, v)
  | _ => none

theorem holds_of_loaded {p : Pc} {x : Call × ℕ} (h : loaded p = some x) :
    holds .lock p = true := by
  unfold loaded at h
  split at h
  · rfl
  · cases h

theorem unloaded_others (e : Effect) (p : Pc) : unloaded (others e p) = unloaded p := by
  refine others_of_woken (I := fun q => unloaded q = unloaded p) e rfl ?_
  unfold Pc.woken
  split <;> rfl

theorem loaded_others (e : Effect) (p : Pc) : loaded (others e p) = loaded p := by
  refine others_of_woken (I := fun q => loaded q = loaded p) e rfl ?_
  unfold Pc.woken
  split <;> rfl

/-- What a move means for the copy. -/
inductive CacheMove (free : ℕ) (p : Pc) (e : Effect) (p' : Pc) : Prop
  | publish (buf : WriteBuf) (bs : List UInt8) : e = .publish bs → unloaded p = none →
      loaded p = none → unloaded p' = some (.write buf) → loaded p' = none → CacheMove free p e p'
  | consume (buf : ReadBuf) (bs : List UInt8) : e = .consume bs → unloaded p = none →
      loaded p = none → unloaded p' = some (.read buf) → loaded p' = none → CacheMove free p e p'
  | load (call : Call) : e = .skip → holds .lock p = true → unloaded p = some call →
      loaded p = none → unloaded p' = none → loaded p' = some (call, free) → CacheMove free p e p'
  | store (call : Call) (v : ℕ) : e = .store v → unloaded p = none → loaded p = some (call, v) →
      unloaded p' = none → loaded p' = none → CacheMove free p e p'
  | keep : (∀ bs, e ≠ .publish bs) → (∀ bs, e ≠ .consume bs) → (∀ v, e ≠ .store v) →
      unloaded p' = unloaded p → loaded p' = loaded p → CacheMove free p e p'

theorem cacheMove_of_edge {dev : ChardrvsPrivDev} {k : Choice} {p p' : Pc} {e : Effect}
    (h : Edge dev k p e p') : CacheMove dev.myfifo.avail p e p' := by
  cases h with
  | publish buf x => exact .publish buf x.bytes rfl rfl rfl rfl rfl
  | consume buf x => exact .consume buf x.bytes rfl rfl rfl rfl rfl
  | load c x => exact .load c rfl rfl rfl rfl rfl rfl
  | store c x v => exact .store c v rfl rfl rfl rfl rfl
  | enter c => cases c <;> exact .keep nofun nofun nofun rfl rfl
  | _ => exact .keep nofun nofun nofun rfl rfl

/-- A relation between the copy and the free space, and the calls that have to
refresh the copy before the relation can be relied on again. A call that need
not do so only ever makes more space. -/
structure Tracking where
  rel : ℕ → ℕ → Prop
  counts : Call → Bool
  fromStart : Bool
  refl : ∀ v, rel v v
  start : fromStart = true → ∀ v f, v ≤ f → rel v f
  writes : ∀ buf, counts (.write buf) = true
  reads : (∀ buf, counts (.read buf) = true) ∨ ∀ v f f', rel v f → f ≤ f' → rel v f'

/-- The copy never promises space that is not there. -/
def notTooLarge : Tracking where
  rel v f := v ≤ f
  counts | .write _ => true | .read _ => false
  fromStart := true
  refl := Nat.le_refl
  start _ _ _ h := h
  writes _ := rfl
  reads := .inr fun _ _ _ => Nat.le_trans

/-- The copy is the free space. -/
def exact : Tracking where
  rel v f := v = f
  counts _ := true
  fromStart := false
  refl _ := rfl
  start := nofun
  writes _ := rfl
  reads := .inl fun _ => rfl

variable (T : Tracking)

/-- Either a call that counts has still to load, or one is about to store a good
value, or the copy itself and every value about to be stored are good. -/
inductive Tracks (s : State) : Prop
  | unloaded (c : ℕ) (call : Call) : unloaded (s.pc c) = some call → T.counts call = true →
      Tracks s
  | loaded (c : ℕ) (call : Call) (v : ℕ) : loaded (s.pc c) = some (call, v) →
      T.counts call = true → T.rel v s.shared.myfifo.avail → Tracks s
  | good : (s.shared.refreshed = true ∨ T.fromStart = true →
        T.rel s.shared.avail s.shared.myfifo.avail) →
      (∀ c call v, ChardrvsAvail.loaded (s.pc c) = some (call, v) →
        T.rel v s.shared.myfifo.avail) → Tracks s

section Step
variable {T} {s t : State} {c : ℕ} {k : Choice} {e : Effect}

theorem unloaded_other (he : program.Step s c k e t) {u : ℕ} (hu : u ≠ c) :
    ChardrvsAvail.unloaded (t.pc u) = ChardrvsAvail.unloaded (s.pc u) := by
  rw [he.others u hu, program_others, unloaded_others]

theorem loaded_other (he : program.Step s c k e t) {u : ℕ} (hu : u ≠ c) :
    ChardrvsAvail.loaded (t.pc u) = ChardrvsAvail.loaded (s.pc u) := by
  rw [he.others u hu, program_others, loaded_others]

/-- A read makes space: what was promised before it is still there. -/
theorem Tracks.consume {buf : ReadBuf} {bs : List UInt8} (h : Tracks T s)
    (he : program.Step s c k (.consume bs) t) (hu : ChardrvsAvail.unloaded (s.pc c) = none)
    (hl : ChardrvsAvail.loaded (s.pc c) = none)
    (hu' : ChardrvsAvail.unloaded (t.pc c) = some (.read buf))
    (hl' : ChardrvsAvail.loaded (t.pc c) = none) : Tracks T t := by
  rcases T.reads with hcounts | hmono
  · exact .unloaded c _ hu' (hcounts buf)
  have hfree : s.shared.myfifo.avail ≤ t.shared.myfifo.avail := by
    rw [he.shared]
    exact Kfifo.avail_consume_ge _ _
  have hrest : t.shared.avail = s.shared.avail ∧ t.shared.refreshed = s.shared.refreshed := by
    rw [he.shared]
    exact ⟨rfl, rfl⟩
  cases h with
  | unloaded d call hd hcall =>
      have hne : d ≠ c := by rintro rfl; simp [hu] at hd
      exact .unloaded d call ((unloaded_other he hne).trans hd) hcall
  | loaded d call v hd hcall hv =>
      have hne : d ≠ c := by rintro rfl; simp [hl] at hd
      exact .loaded d call v ((loaded_other he hne).trans hd) hcall (hmono _ _ _ hv hfree)
  | good hcopy hload =>
      refine .good (fun hn => ?_) fun d call v hd => ?_
      · rw [hrest.1]
        exact hmono _ _ _ (hcopy (hrest.2 ▸ hn)) hfree
      · by_cases hdc : d = c
        · rw [hdc, hl'] at hd
          cases hd
        · exact hmono _ _ _ (hload d call v ((loaded_other he hdc).symm.trans hd)) hfree

/-- The call inside `lock` loads the free space as it is now. -/
theorem Tracks.load {call : Call} (h : Tracks T s) (hx : (mutex .lock).Exclusive s)
    (he : program.Step s c k .skip t) (hin : holds .lock (s.pc c) = true)
    (hu : ChardrvsAvail.unloaded (s.pc c) = some call)
    (hl : ChardrvsAvail.loaded (s.pc c) = none)
    (hl' : ChardrvsAvail.loaded (t.pc c) = some (call, s.shared.myfifo.avail)) : Tracks T t := by
  have hsame : t.shared = s.shared := he.shared
  cases h with
  | unloaded d call' hd hcall =>
      by_cases hdc : d = c
      · rw [hdc, hu, Option.some.injEq] at hd
        exact .loaded c call _ hl' (hd ▸ hcall) (hsame ▸ T.refl _)
      · exact .unloaded d call' ((unloaded_other he hdc).trans hd) hcall
  | loaded d call' v hd _ _ =>
      have hdc : d = c := hx.unique (L := mutex .lock) (holds_of_loaded hd) hin
      rw [hdc, hl] at hd
      cases hd
  | good hcopy hload =>
      refine .good (hsame ▸ hcopy) fun d call' v hd => ?_
      rw [hsame]
      by_cases hdc : d = c
      · rw [hdc, hl'] at hd
        cases hd
        exact T.refl _
      · exact hload d call' v ((loaded_other he hdc).symm.trans hd)

/-- The call inside `lock` stores; nobody else has a value to store. -/
theorem Tracks.store {call : Call} {v : ℕ} (h : Tracks T s) (hx : (mutex .lock).Exclusive s)
    (he : program.Step s c k (.store v) t) (hu : ChardrvsAvail.unloaded (s.pc c) = none)
    (hl : ChardrvsAvail.loaded (s.pc c) = some (call, v))
    (hl' : ChardrvsAvail.loaded (t.pc c) = none) : Tracks T t := by
  have hcopy : t.shared.avail = v ∧ t.shared.myfifo = s.shared.myfifo := by
    rw [he.shared]
    exact ⟨rfl, rfl⟩
  have honly : ∀ d call' w, ChardrvsAvail.loaded (s.pc d) = some (call', w) → d = c :=
    fun d call' w hd => hx.unique (L := mutex .lock) (holds_of_loaded hd) (holds_of_loaded hl)
  have hgood : T.rel v s.shared.myfifo.avail → Tracks T t := by
    intro hv
    refine .good (fun _ => by rw [hcopy.1, hcopy.2]; exact hv) fun d call' w hd => ?_
    by_cases hdc : d = c
    · rw [hdc, hl'] at hd
      cases hd
    · exact absurd (honly d call' w ((loaded_other he hdc).symm.trans hd)) hdc
  cases h with
  | unloaded d call' hd hcall =>
      have hne : d ≠ c := by rintro rfl; simp [hu] at hd
      exact .unloaded d call' ((unloaded_other he hne).trans hd) hcall
  | loaded d call' w hd _ hw =>
      rw [honly d call' w hd, hl] at hd
      cases hd
      exact hgood hw
  | good _ hload => exact hgood (hload c call v hl)

theorem Tracks.keep (h : Tracks T s) (he : program.Step s c k e t) (hp : ∀ bs, e ≠ .publish bs)
    (hc : ∀ bs, e ≠ .consume bs) (hs : ∀ v, e ≠ .store v)
    (hu : ChardrvsAvail.unloaded (t.pc c) = ChardrvsAvail.unloaded (s.pc c))
    (hl : ChardrvsAvail.loaded (t.pc c) = ChardrvsAvail.loaded (s.pc c)) : Tracks T t := by
  have hsame : t.shared.avail = s.shared.avail ∧ t.shared.refreshed = s.shared.refreshed ∧
      t.shared.myfifo = s.shared.myfifo := by
    rw [he.shared]
    cases e with
    | publish bs => exact absurd rfl (hp bs)
    | consume bs => exact absurd rfl (hc bs)
    | store v => exact absurd rfl (hs v)
    | _ => exact ⟨rfl, rfl, rfl⟩
  have hunl : ∀ d, ChardrvsAvail.unloaded (t.pc d) = ChardrvsAvail.unloaded (s.pc d) := fun d => by
    by_cases hdc : d = c
    · rw [hdc, hu]
    · exact unloaded_other he hdc
  have hlod : ∀ d, ChardrvsAvail.loaded (t.pc d) = ChardrvsAvail.loaded (s.pc d) := fun d => by
    by_cases hdc : d = c
    · rw [hdc, hl]
    · exact loaded_other he hdc
  cases h with
  | unloaded d call hd hcall => exact .unloaded d call ((hunl d).trans hd) hcall
  | loaded d call v hd hcall hv =>
      exact .loaded d call v ((hlod d).trans hd) hcall (hsame.2.2 ▸ hv)
  | good hcopy hload =>
      refine .good ?_ fun d call v hd => ?_
      · rw [hsame.1, hsame.2.1, hsame.2.2]
        exact hcopy
      · rw [hsame.2.2]
        exact hload d call v ((hlod d).symm.trans hd)

theorem Tracks.step (h : Tracks T s) (hx : (mutex .lock).Exclusive s)
    (he : program.Step s c k e t) : Tracks T t := by
  cases cacheMove_of_edge (edge_of_step he) with
  | publish buf bs _ _ _ hu' _ => exact .unloaded c _ hu' (T.writes buf)
  | consume buf bs hbs hu hl hu' hl' => exact h.consume (hbs ▸ he) hu hl hu' hl'
  | load call hskip hin hu hl _ hl' => exact h.load hx (hskip ▸ he) hin hu hl hl'
  | store call v hv hu hl _ hl' => exact h.store hx (hv ▸ he) hu hl hl'
  | keep hp hc hs hu hl => exact h.keep he hp hc hs hu hl

end Step

section Runs
variable {fsize : BitVec 32} {ok : State → ℕ × Choice → Prop} {s : State}

theorem tracks (h : (system fsize).ReachableWhen ok s) : Tracks T s := by
  refine Program.invariant ?_ ?_ h
  · rintro s ⟨dev, hd, rfl⟩
    obtain ⟨hempty, hle, _, _⟩ := setupChardrvs_ok hd
    refine .good (fun hn => ?_) nofun
    apply T.start (hn.resolve_left nofun)
    show dev.avail ≤ dev.myfifo.size - dev.myfifo.data.length
    rw [hempty]
    exact hle
  · intro s c k e t hr hs _ he
    exact hs.step (exclusive hr .lock) he

end Runs

/-- A statement about a control point and the free space that only a call
inside `w_f_lock` can make, and that more space never hurts. -/
structure SpaceClaim (P : ℕ → Pc → Prop) : Prop where
  mono : ∀ {free free' p}, free ≤ free' → P free p → P free' p
  outside : ∀ {free free' p}, holds .wFLock p = false → P free p → P free' p
  others : ∀ {free p} (e : Effect), P free p → P free (others e p)

/-- Space only shrinks by a publish, whose caller owns `w_f_lock`: what the
other calls claim stays true. -/
theorem SpaceClaim.other {P : ℕ → Pc → Prop} (hP : SpaceClaim P) {s t : State} {c : ℕ} {k : Choice}
    {e : Effect} (hx : (mutex .wFLock).Exclusive s) (he : program.Step s c k e t) {u : ℕ}
    (hu : u ≠ c) (hp : P s.shared.myfifo.avail (s.pc u)) :
    P t.shared.myfifo.avail (program.others e (s.pc u)) := by
  rw [program_others, he.shared, program_effect]
  refine hP.others e ?_
  cases e with
  | publish bs =>
      obtain ⟨buf, x, hc, _⟩ := edge_publish (edge_of_step he)
      refine hP.outside ?_ hp
      rw [Bool.eq_false_iff]
      exact fun hin => hu (hx.unique hin (by simp [mutex, hc, holds]))
  | consume bs => exact hP.mono (Kfifo.avail_consume_ge _ _) hp
  | _ => exact hp

/-- A writer that has sampled the kfifo has its space reserved. -/
def Reserved (free : ℕ) : Pc → Prop
  | .write _ (.publish x) => x.bytes.length ≤ free
  | _ => True

theorem spaceClaim_reserved : SpaceClaim Reserved where
  mono hle h := by
    unfold Reserved at h ⊢
    split at h
    · exact Nat.le_trans h hle
    · trivial
  outside hout _ := by
    unfold Reserved
    split
    · cases hout
    · trivial
  others {free p} e h := by
    refine others_of_woken e h ?_
    unfold Pc.woken
    split <;> trivial

theorem reserved_edge {dev : ChardrvsPrivDev} {k : Choice} {p p' : Pc} {e : Effect}
    (h : Edge dev k p e p') {free : ℕ} (hskip : e = .skip → free = dev.myfifo.avail) :
    Reserved free p' := by
  cases h with
  | fromUser buf =>
      rw [hskip rfl]
      exact dev.myfifo.fromUser_length_le buf
  | enter c => cases c <;> trivial
  | _ => trivial

/-- The kfifo never holds more than its size, now or after a pending publish. -/
structure Bounded (s : State) : Prop where
  stored : s.shared.myfifo.data.length ≤ s.shared.myfifo.size
  reserved : ∀ c, Reserved s.shared.myfifo.avail (s.pc c)

theorem avail_skip {s t : State} {c : ℕ} {k : Choice} {e : Effect} (he : program.Step s c k e t)
    (hskip : e = .skip) : t.shared.myfifo.avail = s.shared.myfifo.avail := by
  rw [he.shared, hskip]
  rfl

theorem Bounded.step {s t : State} {c : ℕ} {k : Choice} {e : Effect}
    (hx : (mutex .wFLock).Exclusive s) (h : Bounded s) (he : program.Step s c k e t) :
    Bounded t := by
  have hedge := edge_of_step he
  refine ⟨?_, he.forall_threads h.reserved (reserved_edge hedge (avail_skip he)) fun u hu hp =>
    spaceClaim_reserved.other hx he hu hp⟩
  rw [he.shared, program_effect]
  cases e with
  | publish bs =>
      obtain ⟨buf, x, hc, rfl⟩ := edge_publish hedge
      have hr := h.reserved c
      rw [hc] at hr
      have hroom : x.bytes.length ≤ s.shared.myfifo.size - s.shared.myfifo.data.length := hr
      have hs := h.stored
      show (s.shared.myfifo.data ++ x.bytes).length ≤ s.shared.myfifo.size
      rw [List.length_append]
      omega
  | consume bs =>
      show (s.shared.myfifo.data.drop bs.length).length ≤ s.shared.myfifo.size
      rw [List.length_drop]
      exact Nat.le_trans (Nat.sub_le _ _) h.stored
  | _ => exact h.stored

section Bounds
variable {fsize : BitVec 32} {ok : State → ℕ × Choice → Prop} {s : State}

theorem bounded (h : (system fsize).ReachableWhen ok s) : Bounded s := by
  refine Program.invariant ?_ ?_ h
  · rintro s ⟨dev, hd, rfl⟩
    refine ⟨?_, fun _ => trivial⟩
    show dev.myfifo.data.length ≤ dev.myfifo.size
    rw [(setupChardrvs_ok hd).1]
    exact Nat.zero_le _
  · intro s c k e t hr hs _ he
    exact hs.step (exclusive hr .wFLock) he

/-- A read or a write is in progress. -/
def transferring : Pc → Bool
  | .write _ _ | .read _ _ | .refresh _ _ _ => true
  | _ => false

theorem transferring_of_unloaded {p : Pc} {c : Call} (h : unloaded p = some c) :
    transferring p = true := by
  unfold unloaded at h
  split at h <;> first | rfl | cases h

theorem transferring_of_loaded {p : Pc} {x : Call × ℕ} (h : loaded p = some x) :
    transferring p = true := by
  unfold loaded at h
  split at h <;> first | rfl | cases h

/-- Once a transfer has refreshed the copy and no transfer is in progress, the
copy is `kfifo_avail`: the capacity minus the bytes stored. -/
theorem avail_converges (h : (system fsize).Reachable s)
    (hquiet : ∀ c, transferring (s.pc c) = false) (hrefreshed : s.shared.refreshed = true) :
    s.shared.avail = s.shared.myfifo.avail ∧
      s.shared.avail + s.shared.myfifo.data.length = s.shared.myfifo.size := by
  have hexact : s.shared.avail = s.shared.myfifo.avail := by
    cases tracks (T := exact) h with
    | unloaded c call hc _ => exact absurd (transferring_of_unloaded hc) (by simp [hquiet c])
    | loaded c call v hc _ _ => exact absurd (transferring_of_loaded hc) (by simp [hquiet c])
    | good hcopy _ => exact hcopy (.inl hrefreshed)
  have hb := (bounded h).stored
  refine ⟨hexact, ?_⟩
  rw [hexact, Kfifo.avail]
  omega

end Bounds

/-- The second write faults after one byte while the first one has not refreshed
the copy, and the read that faults takes bytes before either of them stores. -/
def overlappingFaults : List (ℕ × Choice) :=
  [(0, .call (.write ⟨[1, 2, 3], 3⟩))] ++ steps 0 5 ++ [(1, .call (.write ⟨[4, 5], 1⟩))] ++
    steps 1 7 ++ [(2, .call (.read ⟨3, 2⟩))] ++ steps 2 4 ++ steps 1 2 ++ steps 0 2 ++ steps 2 1 ++
    steps 0 2 ++ steps 2 4

theorem avail_converges_overlappingFaults :
    ∃ s, (system defaultFsize).run (initial defaultDev) overlappingFaults = some s ∧
      s.pc 1 = .done (.write ⟨[4, 5], 1⟩) (-EFAULT) ∧ s.shared.myfifo.data = [3, 4] ∧
        s.shared.avail = s.shared.myfifo.avail ∧
          s.shared.avail + s.shared.myfifo.data.length = s.shared.myfifo.size := by
  obtain ⟨s, hrun, hfault, hdata, hrefreshed, hquiet⟩ : ∃ s,
      (system defaultFsize).run (initial defaultDev) overlappingFaults = some s ∧
        s.pc 1 = .done (.write ⟨[4, 5], 1⟩) (-EFAULT) ∧ s.shared.myfifo.data = [3, 4] ∧
          s.shared.refreshed = true ∧ ∀ c, transferring (s.pc c) = false := by
    refine ⟨_, rfl, rfl, rfl, rfl, fun c => ?_⟩
    match c with
    | 0 | 1 | 2 => rfl
    | _ + 3 => rfl
  exact ⟨s, hrun, hfault, hdata,
    avail_converges (System.Reachable.run (.start start_default) hrun) hquiet hrefreshed⟩

/-- A write that has filled the kfifo and has not yet published the new free space. -/
def owesRefresh : Pc → Bool
  | .write _ (.unlock _) => true
  | .refresh (.write _) _ .unlock => false
  | .refresh (.write _) _ _ => true
  | _ => false

theorem owesRefresh_of_unloaded {p : Pc} {buf : WriteBuf} (h : unloaded p = some (.write buf)) :
    owesRefresh p = true := by
  unfold unloaded at h
  split at h <;> cases h <;> rfl

theorem owesRefresh_of_loaded {p : Pc} {buf : WriteBuf} {v : ℕ}
    (h : loaded p = some (.write buf, v)) : owesRefresh p = true := by
  unfold loaded at h
  split at h <;> cases h
  rfl

/-- The writer is about to test the condition of its wait. -/
def Tests (buf : WriteBuf) (k : Choice) (p : Pc) : Prop :=
  k = .run ∧ p = .write buf .wait ∨ k = .signal ∧ p = .write buf .parked

/-- No writer leaves its wait while another write owes a refresh. -/
def PassesSettled (s : State) (a : ℕ × Choice) : Prop :=
  ∀ buf, Tests buf a.2 (s.pc a.1) → buf.count ≤ s.shared.avail →
    ∀ c, owesRefresh (s.pc c) = false

/-- From its wait on, a writer has room for all of its bytes; from the copy on,
it has taken all of them or failed. -/
def Full (free : ℕ) : Pc → Prop
  | .write buf .fromUser => buf.count ≤ free
  | .write buf (.publish x) | .write buf (.unlock x) | .refresh (.write buf) x _ =>
      x.ret < 0 ∨ x = ⟨buf.bytes, 0⟩
  | .done (.write buf) ret => 0 ≤ ret → ret = buf.count
  | _ => True

theorem spaceClaim_full : SpaceClaim Full where
  mono hle h := by
    unfold Full at h ⊢
    split at h
    · exact Nat.le_trans h hle
    all_goals exact h
  outside hout h := by
    unfold Full at h ⊢
    split at h
    · cases hout
    all_goals exact h
  others {free p} e h := by
    refine others_of_woken e h ?_
    unfold Pc.woken
    split <;> trivial

theorem full_edge {dev : ChardrvsPrivDev} {k : Choice} {p p' : Pc} {e : Effect}
    (h : Edge dev k p e p') (hp : Full dev.myfifo.avail p) {free : ℕ}
    (hskip : e = .skip → free = dev.myfifo.avail)
    (hpass : ∀ buf, Tests buf k p → buf.count ≤ dev.avail → buf.count ≤ dev.myfifo.avail) :
    Full free p' := by
  cases h with
  | enter c => cases c <;> trivial
  | writePass buf ha =>
      rw [hskip rfl]
      exact hpass buf (.inl ⟨rfl, rfl⟩) ha
  | signalPass buf ha =>
      rw [hskip rfl]
      exact hpass buf (.inr ⟨rfl, rfl⟩) ha
  | fromUser buf => exact Kfifo.fromUser_whole hp
  | refreshUnlock c x =>
      cases c with
      | read buf => trivial
      | write buf =>
          intro hret
          unfold Transfer.result at hret ⊢
          rcases hp with hneg | rfl
          · rw [if_neg (by omega)] at hret
            omega
          · rfl
  | signalWriteLock buf | signalWait buf => exact fun hret => absurd hret (by decide)
  | signalReadLock buf => trivial
  | refreshLock c _ _ | load c _ | store c _ _ => cases c <;> exact hp
  | _ => exact hp

section Writes
variable {fsize : BitVec 32} {ok : State → ℕ × Choice → Prop} {s : State}

theorem avail_le_of_no_debt (h : (system fsize).ReachableWhen ok s)
    (hdebt : ∀ c, owesRefresh (s.pc c) = false) : s.shared.avail ≤ s.shared.myfifo.avail := by
  cases tracks (T := notTooLarge) h with
  | unloaded c call hc hcall =>
      cases call with
      | read buf => cases hcall
      | write buf => exact absurd (owesRefresh_of_unloaded hc) (by simp [hdebt c])
  | loaded c call v hc hcall _ =>
      cases call with
      | read buf => cases hcall
      | write buf => exact absurd (owesRefresh_of_loaded hc) (by simp [hdebt c])
  | good hcopy _ => exact hcopy (.inr rfl)

def AllFull (s : State) : Prop := ∀ c, Full s.shared.myfifo.avail (s.pc c)

theorem allFull (h : (system fsize).ReachableWhen PassesSettled s) : AllFull s := by
  refine Program.invariant ?_ ?_ h
  · rintro s ⟨dev, _, rfl⟩ c
    trivial
  · intro s c k e t hr hs hok he
    refine he.forall_threads hs ?_ fun u hu hp => spaceClaim_full.other (exclusive hr _) he hu hp
    refine full_edge (edge_of_step he) (hs c) (avail_skip he) fun buf htests ha => ?_
    exact Nat.le_trans ha (avail_le_of_no_debt hr (hok buf htests ha))

/-- A writer past its wait finds its bytes free, and a write that returns a
length has enqueued its whole buffer and returns that length. -/
structure NoShortWrite (s : State) : Prop where
  room : ∀ c buf, s.pc c = .write buf .fromUser → buf.count ≤ s.shared.myfifo.avail
  returned : ∀ c buf ret, s.pc c = .done (.write buf) ret → 0 ≤ ret →
    ret = buf.count ∧ s.shared.moved c = buf.bytes

theorem noShortWrite (h : (system fsize).ReachableWhen PassesSettled s) : NoShortWrite s := by
  refine ⟨fun c buf hp => ?_, fun c buf ret hp hret => ?_⟩
  · have hc := allFull h c
    rw [hp] at hc
    exact hc
  · have hc := allFull h c
    rw [hp] at hc
    have hcount : ret = buf.count := hc hret
    refine ⟨hcount, ?_⟩
    rcases done_cases h hp with ⟨he, _⟩ | ⟨hlen | he, hfront⟩
    · exact absurd (he ▸ hret) (by decide)
    · refine (hfront buf rfl).eq_of_length ?_
      have : ((s.shared.moved c).length : ℤ) = buf.count := hlen.symm.trans hcount
      exact Int.ofNat_inj.mp this
    · exact absurd (he ▸ hret) (by decide)

/-- Where every writer leaves its wait with no write between its unlock and its
refresh, no write of the run is short. -/
theorem noShortWrite_of_passesSettled {s₀ : State} (hs : (system fsize).start s₀)
    {as : List (ℕ × Choice)} (h : (system fsize).Meets PassesSettled s₀ as) :
    (system fsize).Along NoShortWrite s₀ as :=
  (System.ReachableWhen.start hs).along (fun _ => noShortWrite) h

end Writes

/-- A writer in its wait, or no write below `N` that owes a refresh. -/
def settledBelow (N : ℕ) (s : State) (a : ℕ × Choice) : Bool :=
  match s.pc a.1 with
  | .write _ .wait | .write _ .parked => (List.range N).all fun c => !owesRefresh (s.pc c)
  | _ => true

theorem passesSettled_of_below {N : ℕ} {s : State} {a : ℕ × Choice}
    (hrest : ∀ u, N ≤ u → s.pc u = .unstarted) (h : settledBelow N s a = true) :
    PassesSettled s a := by
  intro buf htests _
  have hall : ((List.range N).all fun c => !owesRefresh (s.pc c)) = true := by
    rcases htests with ⟨_, hp⟩ | ⟨_, hp⟩
    · simpa only [settledBelow, hp] using h
    · simpa only [settledBelow, hp] using h
  refine Program.forall_of_below hrest (Q := fun p => owesRefresh p = false) rfl fun c hc => ?_
  simpa using List.all_eq_true.mp hall c (List.mem_range.mpr hc)

/-- A write fills the kfifo and a second one parks. A read makes room and wakes
it, and a third call reads while the second writer leaves its wait. -/
def parkedWriterPasses : List (ℕ × Choice) :=
  [(0, .call (.write ⟨List.replicate 16 1, 16⟩))] ++ steps 0 9 ++
    [(1, .call (.write ⟨[2], 1⟩))] ++ steps 1 2 ++ [(2, .call (.read ⟨8, 8⟩))] ++ steps 2 9 ++
    [(3, .call (.read ⟨4, 4⟩))] ++ steps 3 3 ++ steps 1 8 ++ steps 3 6

theorem noShortWrite_parkedWriterPasses :
    ∃ s, (system defaultFsize).run (initial defaultDev) parkedWriterPasses = some s ∧
      s.pc 1 = .done (.write ⟨[2], 1⟩) 1 ∧
        (system defaultFsize).Along NoShortWrite (initial defaultDev) parkedWriterPasses := by
  have hsettled : (system defaultFsize).Meets PassesSettled (initial defaultDev)
      parkedWriterPasses :=
    Program.meets_of_passes (N := 4) (fun e => by cases e <;> rfl)
      (fun _ _ => passesSettled_of_below) (fun _ _ => rfl) (by decide) rfl
  exact ⟨_, rfl, rfl, noShortWrite_of_passesSettled start_default hsettled⟩

/-- The first write fills the kfifo and drops `w_f_lock`; the second one passes
its wait on the free space of before and finds none. -/
def staleAvail : List (ℕ × Choice) :=
  [(0, .call (.write ⟨List.replicate 16 1, 16⟩))] ++ steps 0 5 ++
    [(1, .call (.write ⟨[2], 1⟩))] ++ steps 1 9

/-- A call whose user buffer does not fault. -/
def faultless : Choice → Bool
  | .call (.write buf) => buf.count ≤ buf.accessible
  | .call (.read buf) => buf.count ≤ buf.accessible
  | _ => true

theorem not_noShortWrite_faultless :
    ¬∀ (fsize : BitVec 32) (s₀ s : State) (as : List (ℕ × Choice)), (system fsize).start s₀ →
      (∀ a ∈ as, faultless a.2 = true) → (system fsize).run s₀ as = some s → NoShortWrite s := by
  intro h
  obtain ⟨s, hrun, hp⟩ : ∃ s,
      (system defaultFsize).run (initial defaultDev) staleAvail = some s ∧
        s.pc 1 = .done (.write ⟨[2], 1⟩) 0 :=
    ⟨_, rfl, rfl⟩
  have hd := h _ _ s staleAvail start_default (by decide) hrun
  exact absurd (hd.returned 1 _ _ hp (Int.le_refl 0)).1 (by decide)

end LinuxDeviceDrivers.ChardrvsAvail

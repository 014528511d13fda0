import Barrage.Proofs.Family

namespace Barrage.Simulation

/-- One start of a pattern, by frames under the given conditions: `family` are the emitter and the
bullets that descend from it, in the order of their creation. Between the frames, the host does as
it likes with everything else. -/
inductive Instance (p : Pattern) (pos : Point) (rank : Float32) :
    List Conditions → List BulletId → Simulation → List BulletId → Prop where
  | opens {issued : List BulletId} {s : Simulation} {id : BulletId}
      (h : Reachable (fun _ => True) issued s) (hr : s.context.rank = rank)
      (hs : (s.spawn p pos).1 = .ok (some id)) (hw : (s.spawn p pos).2.NoWrap) :
      Instance p pos rank [] (issued ++ (s.spawn p pos).2.pool.ids) (s.spawn p pos).2 [id]
  | frame {frames : List Conditions} {issued family : List BulletId} {s : Simulation}
      (h : Instance p pos rank frames issued s family) (dt : Float32)
      (hu : s.Unhindered dt family) (hw : (s.update dt).NoWrap) :
      Instance p pos rank (frames ++ [s.conditions dt]) (issued ++ (s.update dt).pool.ids)
        (s.update dt) (s.heirs dt family)
  | aside {frames : List Conditions} {issued family : List BulletId} {s : Simulation}
      (h : Instance p pos rank frames issued s family) (c : HostCall) (hl : c.Lawful issued)
      (hu : ∀ dt, c ≠ .update dt) (hk : ∀ id ∈ family, (c.perform s).get? id = s.get? id)
      (hw : (c.perform s).NoWrap) :
      Instance p pos rank frames (issued ++ (c.perform s).pool.ids) (c.perform s) family

/-- What can be seen of the bullet of a handle. -/
def motion? (s : Simulation) (id : BulletId) : Option Motion := (s.get? id).map Bullet.motion

variable {p : Pattern} {pos : Point} {rank : Float32} {frames : List Conditions}
  {issued issued' family family' ids ids' : List BulletId} {s s' : Simulation} {as : List Actor}

theorem Instance.reachable (h : Instance p pos rank frames issued s family) :
    Reachable (fun _ => True) issued s := by
  induction h with
  | opens h _ _ hw => exact .step h (.spawn p pos) trivial trivial hw
  | frame _ dt _ hw ih => exact .step ih (.update dt) trivial trivial hw
  | aside _ c hl _ _ hw ih => exact .step ih c trivial hl hw

/-- The emitter of a pattern is an actor at rest. -/
theorem casts_spawn {id : BulletId} (h : Reachable (fun _ => True) issued s)
    (hs : (s.spawn p pos).1 = .ok (some id)) :
    [id].Sublist (s.spawn p pos).2.pool.ids ∧ ∃ as, Performance p pos s.context.rank [] as ∧
      (s.spawn p pos).2.Casts p [id] as := by
  have hspawn := h.inOrder.1.spawns p pos
  generalize s.spawn p pos = x at hs hspawn
  cases hspawn with
  | refuses hx => exact absurd hs (hx id)
  | fails => cases hs
  | @starts emitter pool _ _ _ _ hp _ hh hm hb hx =>
    cases hs
    have hids : pool.ids = s.pool.ids ++ [emitter.id] := hp.ids
    refine ⟨?_, _, .opens hx, .cons ⟨emitter, ?_, hb, hm, hh.shows⟩ .nil⟩
    · simp only
      rw [hids]
      exact List.sublist_append_right _ _
    · exact hp.added emitter List.mem_cons_self

/-- The family of an instance is a performance of its pattern. -/
theorem Instance.performs (h : Instance p pos rank frames issued s family) :
    family.Sublist s.pool.ids ∧ ∃ as, Performance p pos rank frames as ∧ s.Casts p family as := by
  induction h with
  | opens h hr hs hw =>
    subst hr
    exact casts_spawn h hs
  | frame h dt hu hw ih =>
    obtain ⟨hf, as, hp, hc⟩ := ih
    obtain ⟨as', cast, hacted, hheirs, hsub⟩ := h.reachable.inOrder.1.acted_update hf hc hu hw.2
    exact ⟨hsub, _, hp.frame hacted, hheirs⟩
  | aside h c hl hu hk hw ih =>
    obtain ⟨hf, as, hp, hc⟩ := ih
    obtain ⟨ho, hwrap, hi⟩ := h.reachable.inOrder
    obtain ⟨ho', _⟩ := ho.perform hwrap hi hl nofun nofun hw
    have hfind (id) (hid : id ∈ _) := ho.find (hf.subset hid)
    refine ⟨ho.sublist_perform hu hf ?_, as, hp, hc.spared ?_⟩
    · intro id hid
      obtain ⟨b, hb⟩ := hfind id hid
      exact (ho'.pool.listed id b ((hk id hid).trans hb)).1
    · intro id hid
      obtain ⟨b, hb⟩ := hfind id hid
      exact ho.spares_perform hwrap hi hl hu hb (hk id hid) hw.2

/-- What can be seen of some bullets is what can be seen of their actors. -/
theorem Casts.motions (h : s.Casts p ids as) : ids.map s.motion? = as.map (some ·.motion) := by
  induction h with
  | nil => rfl
  | cons ha _ ih =>
    obtain ⟨b, hb, _, hm, _⟩ := ha
    rw [List.map_cons, List.map_cons, ih, motion?, hb, Option.map_some, hm]

/-- Two instances of a tame pattern cannot be told apart, whatever else there is beside them: after
the same frames, their bullets are in the same motions, and so they are within the next frame before
those that have vanished are recycled. -/
theorem instances_isolated (hp : p.Tame) (h : Instance p pos rank frames issued s family)
    (h' : Instance p pos rank frames issued' s' family') :
    family.Sublist s.pool.ids ∧ family'.Sublist s'.pool.ids ∧
    family.map s.motion? = family'.map s'.motion? ∧
    ∀ dt, s.conditions dt = s'.conditions dt → s.Unhindered dt family →
      s'.Unhindered dt family' → (s.update dt).NoWrap → (s'.update dt).NoWrap →
      (s.kin dt family).Sublist (s.ticked dt).pool.ids ∧
      (s'.kin dt family').Sublist (s'.ticked dt).pool.ids ∧
      (s.kin dt family).map (s.ticked dt).motion? =
        (s'.kin dt family').map (s'.ticked dt).motion? := by
  obtain ⟨hf, as, hperf, hc⟩ := h.performs
  obtain ⟨hf', as', hperf', hc'⟩ := h'.performs
  obtain ⟨rfl, hcalm⟩ := hperf.unique hp hperf'
  refine ⟨hf, hf', hc.motions.trans hc'.motions.symm, ?_⟩
  intro dt he hu hu' hw hw'
  have ho := h.reachable.inOrder.1
  have ho' := h'.reachable.inOrder.1
  obtain ⟨as₁, cast₁, hacted, hkin, hsub⟩ :=
    ho.acted_ticked hf hc hu (ho.update_eq nofun hw.2).2
  obtain ⟨as₂, cast₂, hacted', hkin', hsub'⟩ :=
    ho'.acted_ticked hf' hc' hu' (ho'.update_eq nofun hw'.2).2
  rw [← he] at hacted'
  obtain ⟨rfl, rfl, _⟩ := hacted.unique hp hcalm hacted'
  exact ⟨hsub, hsub', hkin.motions.trans hkin'.motions.symm⟩

/-- A simulation in which a bullet was put and a pattern started twice. -/
def crowd : Simulation :=
  (HostCall.spawn .spark .zero).perform ((HostCall.spawn .spark .zero).perform
    ((HostCall.create .zero 0 0).perform (.init 8 0 0 none 0)))

theorem crowded_spark_isolated :
    lit.heirs 0 [⟨0, 0⟩] = [⟨0, 0⟩, ⟨1, 0⟩] ∧
    (crowd.vanish ⟨0, 0⟩).2.heirs 0 [⟨2, 0⟩] = [⟨2, 0⟩, ⟨3, 0⟩] ∧
    [⟨0, 0⟩, ⟨1, 0⟩].map (lit.update 0).motion? =
      [⟨2, 0⟩, ⟨3, 0⟩].map ((crowd.vanish ⟨0, 0⟩).2.update 0).motion? := by
  have hlit : Instance .spark .zero (Binary32.clampUnit 0) [] _ lit [⟨0, 0⟩] :=
    .opens (.init 4 0 0 none 0) rfl rfl (by decide +kernel)
  have hfirst : Reachable (fun _ => True) _ ((HostCall.spawn .spark .zero).perform _) :=
    .step (.step (.init 8 0 0 none 0) (.create .zero 0 0) trivial trivial (by decide +kernel))
      (.spawn .spark .zero) trivial trivial (by decide +kernel)
  have hcrowd : Instance .spark .zero (Binary32.clampUnit 0) [] _ crowd [⟨2, 0⟩] :=
    .opens hfirst rfl rfl (by decide +kernel)
  have hbeside : Instance .spark .zero (Binary32.clampUnit 0) [] _ (crowd.vanish ⟨0, 0⟩).2 _ :=
    .aside hcrowd (.vanish ⟨0, 0⟩) (List.mem_append_right _ (by decide +kernel)) nofun
      (List.forall_mem_singleton.2 rfl) (by decide +kernel)
  have hheirs : lit.heirs 0 [⟨0, 0⟩] = [⟨0, 0⟩, ⟨1, 0⟩] := by decide +kernel
  have hheirs' : (crowd.vanish ⟨0, 0⟩).2.heirs 0 [⟨2, 0⟩] = [⟨2, 0⟩, ⟨3, 0⟩] := by decide +kernel
  have hnext := hlit.frame 0 (by decide +kernel) (by decide +kernel)
  have hnext' := hbeside.frame 0 (by decide +kernel) (by decide +kernel)
  rw [hheirs] at hnext
  rw [hheirs'] at hnext'
  obtain ⟨_, _, hsame, _⟩ :=
    instances_isolated (Pattern.tame_of_plain (by decide +kernel)) hnext hnext'
  exact ⟨hheirs, hheirs', hsame⟩

end Barrage.Simulation

import HftLob.Lib.Machine

/-!
# Round robin in batches

One server takes requests from `n` parties in turn, at most `b` from each before it
turns to the next, and turns to the next at once when the party has none. `wait` is how
many requests of the others can be served before a party gets `k` requests and one more
through: a request of another party lowers it, a party that is passed over does not raise
it, and its own requests keep it. The bound on the length of the server's log before a
request is in it follows by one induction over the run.
-/

namespace HftLob.Lib.RoundRobin

/-- Whose turn it is, and how many requests it has had in this turn. -/
structure Turn where
  who : Nat
  used : Nat

namespace Turn

variable {n b : Nat}

structure Ok (n b : Nat) (t : Turn) : Prop where
  who : t.who < n
  used : t.used < b

def pass (n : Nat) (t : Turn) : Turn := ⟨if t.who + 1 < n then t.who + 1 else 0, 0⟩

def serve (n b : Nat) (t : Turn) : Turn :=
  if t.used + 1 < b then ⟨t.who, t.used + 1⟩ else t.pass n

/-- How many turns away the party is. -/
def distance (n p : Nat) (t : Turn) : Nat := if t.who ≤ p then p - t.who else p + n - t.who

/-- How many requests of others go before the party `p` has `k` requests and one more
through. -/
def wait (n b p k : Nat) (t : Turn) : Nat :=
  if t.who = p then
    if k < b - t.used then 0 else (n - 1) * b * ((k - (b - t.used)) / b + 1)
  else b - t.used + (t.distance n p - 1) * b + (n - 1) * b * (k / b)

theorem distance_pass {p : Nat} {t : Turn} (ht : t.Ok n b) (hp : p < n) (hne : t.who ≠ p) :
    t.distance n p = (t.pass n).distance n p + 1 := by
  have := ht.who
  unfold distance pass
  dsimp only
  split <;> split <;> split <;> omega

/-- It is a party's turn again after all the others have had theirs. -/
theorem distance_pass_self {p : Nat} {t : Turn} (ht : t.Ok n b) (hp : t.who = p)
    (hn : 1 < n) : (t.pass n).distance n p = n - 1 := by
  have := ht.who
  unfold distance pass
  dsimp only
  split <;> split <;> omega

theorem pass_who_ne {p : Nat} {t : Turn} (ht : t.Ok n b) (hp : t.who = p) (hn : 1 < n) :
    (t.pass n).who ≠ p := by
  have := ht.who
  unfold pass
  dsimp only
  split <;> omega

theorem who_eq_of_distance {p : Nat} {t : Turn} (ht : t.Ok n b) (hd : t.distance n p = 0) :
    t.who = p := by
  have := ht.who
  unfold distance at hd
  split at hd <;> omega

theorem Ok.pass {t : Turn} (ht : t.Ok n b) : (t.pass n).Ok n b := by
  have hwho := ht.who
  have hused := ht.used
  refine ⟨?_, Nat.lt_of_le_of_lt (Nat.zero_le _) hused⟩
  unfold Turn.pass
  dsimp only
  split <;> omega

theorem Ok.serve {t : Turn} (ht : t.Ok n b) : (t.serve n b).Ok n b := by
  unfold Turn.serve
  split
  · exact ⟨ht.who, ‹_›⟩
  · exact ht.pass

theorem wait_self {p k : Nat} {t : Turn} (hp : t.who = p) (hk : k < b - t.used) :
    t.wait n b p k = 0 := by
  unfold wait
  rw [if_pos hp, if_pos hk]

theorem wait_self_later {p k : Nat} {t : Turn} (hp : t.who = p) (hk : ¬k < b - t.used) :
    t.wait n b p k = (n - 1) * b * ((k - (b - t.used)) / b + 1) := by
  unfold wait
  rw [if_pos hp, if_neg hk]

theorem wait_other {p k : Nat} {t : Turn} (hp : t.who ≠ p) :
    t.wait n b p k = b - t.used + (t.distance n p - 1) * b + (n - 1) * b * (k / b) := by
  unfold wait
  rw [if_neg hp]

/-- At the start of its turn a party waits one round for every batch before its request. -/
theorem wait_start {p k : Nat} {t : Turn} (hp : t.who = p) (hu : t.used = 0) (hb : 0 < b) :
    t.wait n b p k = (n - 1) * b * (k / b) := by
  by_cases hk : k < b - t.used
  · rw [wait_self hp hk, Nat.div_eq_of_lt (by omega), Nat.mul_zero]
  · rw [wait_self_later hp hk, hu, Nat.sub_zero, ← Nat.div_eq_sub_div hb (by omega)]

/-- **Another party is done with its turn**: its whole share is off the wait. -/
theorem wait_pass {p k : Nat} {t : Turn} (ht : t.Ok n b) (hp : p < n) (hne : t.who ≠ p) :
    (t.pass n).wait n b p k + (b - t.used) = t.wait n b p k := by
  have hd := distance_pass ht hp hne
  have hb : 0 < b := Nat.lt_of_le_of_lt (Nat.zero_le _) ht.used
  rw [wait_other hne, hd, Nat.add_sub_cancel]
  by_cases hnext : (t.pass n).who = p
  · have hzero : (t.pass n).distance n p = 0 := by
      unfold distance
      rw [if_pos (Nat.le_of_eq hnext), hnext, Nat.sub_self]
    rw [wait_start hnext rfl hb, hzero, Nat.zero_mul]
    omega
  · obtain ⟨d, hd'⟩ : ∃ d, (t.pass n).distance n p = d + 1 :=
      Nat.exists_eq_succ_of_ne_zero fun h0 => hnext (who_eq_of_distance ht.pass h0)
    rw [wait_other hnext, hd', Nat.add_sub_cancel, Nat.succ_mul]
    have hu : (t.pass n).used = 0 := rfl
    rw [hu]
    omega

/-- A request of another party is one less to wait for. -/
theorem wait_serve_other {p k : Nat} {t : Turn} (ht : t.Ok n b) (hp : p < n)
    (hne : t.who ≠ p) : (t.serve n b).wait n b p k + 1 = t.wait n b p k := by
  have hused := ht.used
  unfold serve
  split
  · rw [wait_other hne, wait_other (t := ⟨t.who, t.used + 1⟩) hne]
    unfold distance
    dsimp only
    omega
  · have := wait_pass (k := k) ht hp hne
    omega

/-- A request of the party itself is one less before the one it waits for. -/
theorem wait_serve_self {p k : Nat} {t : Turn} (ht : t.Ok n b) (hp : t.who = p)
    (hn : 1 < n) : (t.serve n b).wait n b p k = t.wait n b p (k + 1) := by
  have hused := ht.used
  unfold serve
  split
  · by_cases hk : k + 1 < b - t.used
    · rw [wait_self hp hk, wait_self (t := ⟨t.who, t.used + 1⟩) hp (by dsimp only; omega)]
    · rw [wait_self_later hp hk,
        wait_self_later (t := ⟨t.who, t.used + 1⟩) hp (by dsimp only; omega)]
      have : k - (b - (t.used + 1)) = k + 1 - (b - t.used) := by omega
      rw [this]
  · -- the last of its batch: a whole round of the others is next
    have hlast : b - t.used = 1 := by omega
    obtain ⟨m, rfl⟩ : ∃ m, n = m + 2 := ⟨n - 2, by omega⟩
    rw [wait_self_later hp (by omega), wait_other (pass_who_ne ht hp hn),
      distance_pass_self ht hp hn, hlast, Nat.add_sub_cancel]
    have hu : (t.pass (m + 2)).used = 0 := rfl
    have hsub : m + 2 - 1 = m + 1 := by omega
    rw [hu, hsub, Nat.add_sub_cancel, Nat.mul_succ, Nat.succ_mul]
    omega

theorem distance_lt {p : Nat} {t : Turn} (ht : t.Ok n b) (hp : p < n) :
    t.distance n p < n := by
  have := ht.who
  unfold distance
  split <;> omega

/-- Nobody waits for more than one round of the others for each batch begun. -/
theorem wait_le {p k : Nat} {t : Turn} (ht : t.Ok n b) (hp : p < n) :
    t.wait n b p k ≤ (n - 1) * b * (k / b + 1) := by
  by_cases hown : t.who = p
  · by_cases hk : k < b - t.used
    · rw [wait_self hown hk]
      exact Nat.zero_le _
    · rw [wait_self_later hown hk]
      have hdiv : (k - (b - t.used)) / b ≤ k / b := Nat.div_le_div_right (Nat.sub_le _ _)
      exact Nat.mul_le_mul_left _ (Nat.succ_le_succ hdiv)
  · rw [wait_other hown]
    have hd := distance_lt ht hp
    have hpos : t.distance n p ≠ 0 := fun h0 => hown (who_eq_of_distance ht h0)
    obtain ⟨d, hd'⟩ := Nat.exists_eq_succ_of_ne_zero hpos
    have hround : (d + 1) * b ≤ (n - 1) * b := Nat.mul_le_mul_right _ (by omega)
    rw [hd', Nat.succ_sub_one, Nat.mul_succ]
    rw [Nat.succ_mul] at hround
    omega

end Turn

/-! ## Whole runs -/

variable {σ α : Type} {n b : Nat}

/-- What a step does to the turn and to the log `served` of who got a request through;
`asked p` is how many requests the party `p` has made. -/
inductive Move (n b : Nat) (turn : σ → Turn) (served : σ → List Nat) (asked : Nat → σ → Nat)
    (s t : σ) : Prop where
  | stay (hserved : served t = served s) (hturn : turn t = turn s)
  | serve (hserved : served t = served s ++ [(turn s).who]) (hturn : turn t = (turn s).serve n b)
  /-- Only a party with nothing left is passed over. -/
  | pass (hserved : served t = served s) (hturn : turn t = (turn s).pass n)
      (hskip : asked (turn s).who s ≤ (served s).count (turn s).who)

/-- A machine that serves `n` parties round robin, in batches of `b`. -/
structure Serves (n b : Nat) (step : σ → α → Option σ) (I : σ → Prop) (turn : σ → Turn)
    (served : σ → List Nat) (asked : Nat → σ → Nat) : Prop where
  keeps : ∀ {s a t}, I s → step s a = some t → I t
  turn_ok : ∀ {s}, I s → (turn s).Ok n b
  asked_le : ∀ {s a t}, I s → step s a = some t → ∀ p, asked p s ≤ asked p t
  moves : ∀ {s a t}, I s → step s a = some t → Move n b turn served asked s t

/-- The request `m` of `p` is among the first `N` of the log, or there is room for all that
can still go before it. -/
def Due (n b p m N : Nat) (turn : Turn) (served : List Nat) : Prop :=
  m < (served.take N).count p
    ∨ served.count p ≤ m
      ∧ served.length + (m - served.count p) + turn.wait n b p (m - served.count p) < N

theorem due_start {p m : Nat} {turn : Turn} {served : List Nat} (hturn : turn.Ok n b)
    (hp : p < n) (hm : served.count p ≤ m) :
    Due n b p m (served.length + (m - served.count p) + 1
      + (n - 1) * b * ((m - served.count p) / b + 1)) turn served := by
  refine Or.inr ⟨hm, ?_⟩
  have := Turn.wait_le (k := m - served.count p) hturn hp
  omega

theorem count_take_append_le {p N who : Nat} (served : List Nat) :
    (served.take N).count p ≤ ((served ++ [who]).take N).count p := by
  refine List.Sublist.count_le p ?_
  rw [List.take_append]
  exact List.sublist_append_left _ _

/-- A request is put into the log. -/
theorem Due.serve {p m N : Nat} {turn : Turn} {served : List Nat}
    (h : Due n b p m N turn served) (hturn : turn.Ok n b) (hp : p < n) (hn : 1 < n) :
    Due n b p m N (turn.serve n b) (served ++ [turn.who]) := by
  rcases h with hdone | ⟨hm, hroom⟩
  · exact Or.inl (Nat.lt_of_lt_of_le hdone (count_take_append_le served))
  have hlen : (served ++ [turn.who]).length = served.length + 1 := by simp
  by_cases hown : turn.who = p
  · have hcount : (served ++ [turn.who]).count p = served.count p + 1 := by
      rw [hown, List.count_append, List.count_singleton_self]
    by_cases hlast : served.count p = m
    · left
      rw [List.take_of_length_le (by omega), hcount]
      omega
    · right
      have hwait := Turn.wait_serve_self (k := m - (served.count p + 1)) hturn hown hn
      have hk : m - (served.count p + 1) + 1 = m - served.count p := by omega
      rw [hk] at hwait
      rw [hcount, hlen, hwait]
      omega
  · right
    have hcount : (served ++ [turn.who]).count p = served.count p := by
      rw [List.count_append, List.count_singleton, if_neg (by simpa using hown), Nat.add_zero]
    have hwait := Turn.wait_serve_other (k := m - served.count p) hturn hp hown
    rw [hcount, hlen]
    omega

/-- A party without a request is passed over; the one that waits is not. -/
theorem Due.pass {p m N : Nat} {turn : Turn} {served : List Nat}
    (h : Due n b p m N turn served) (hturn : turn.Ok n b) (hp : p < n)
    (hskip : turn.who = p → m < served.count p) : Due n b p m N (turn.pass n) served := by
  rcases h with hdone | ⟨hm, hroom⟩
  · exact Or.inl hdone
  have hne : turn.who ≠ p := fun hown => absurd (hskip hown) (Nat.not_lt.mpr hm)
  have hwait := Turn.wait_pass (k := m - served.count p) hturn hp hne
  exact Or.inr ⟨hm, by omega⟩

variable {step : σ → α → Option σ} {I : σ → Prop} {turn : σ → Turn} {served : σ → List Nat}
  {asked : Nat → σ → Nat}

theorem Serves.due_step (h : Serves n b step I turn served asked) {p m N : Nat} (hp : p < n)
    (hn : 1 < n) {s t : σ} {a : α} (hI : I s) (hasked : m < asked p s)
    (hdue : Due n b p m N (turn s) (served s)) (hstep : step s a = some t) :
    Due n b p m N (turn t) (served t) := by
  have hturn := h.turn_ok hI
  obtain ⟨hserved, ht⟩ | ⟨hserved, ht⟩ | ⟨hserved, ht, hskip⟩ := h.moves hI hstep
  · rw [hserved, ht]
    exact hdue
  · rw [hserved, ht]
    exact hdue.serve hturn hp hn
  · rw [hserved, ht]
    refine hdue.pass hturn hp fun hown => ?_
    rw [hown] at hskip
    exact Nat.lt_of_lt_of_le hasked hskip

/-- **Every request is served**, after a bounded number of others: once the log is long
enough, the request is in its first part. -/
theorem Serves.bounded (h : Serves n b step I turn served asked) {p m : Nat} (hp : p < n)
    (hn : 1 < n) {s t : σ} {as : List α} (hI : I s) (hasked : m < asked p s)
    (hrun : Machine.exec step s as = some t) (hm : (served s).count p ≤ m) {N : Nat}
    (hN : N = (served s).length + (m - (served s).count p) + 1
      + (n - 1) * b * ((m - (served s).count p) / b + 1))
    (hlen : N ≤ (served t).length) : m < ((served t).take N).count p := by
  have hstart : Due n b p m N (turn s) (served s) := hN ▸ due_start (h.turn_ok hI) hp hm
  have hend := Machine.exec_preserves
    (I := fun u => I u ∧ m < asked p u ∧ Due n b p m N (turn u) (served u))
    (fun u a v hu hv => ⟨h.keeps hu.1 hv, Nat.lt_of_lt_of_le hu.2.1 (h.asked_le hu.1 hv p),
      h.due_step hp hn hu.1 hu.2.1 hu.2.2 hv⟩) as s t ⟨hI, hasked, hstart⟩ hrun
  rcases hend.2.2 with hdone | ⟨_, hroom⟩
  · exact hdone
  · omega

end HftLob.Lib.RoundRobin

import Mathlib.Data.List.Induction
import SchemaCompiler.Proofs.Url.Percent

/-!
# Hosts as they are written

Names, addresses of four numbers and addresses of eight groups are read from their texts as
themselves.
-/
namespace SchemaCompiler.Url

variable {c : Char} {cs host : List Char} {base n : Nat} {p : Char → Prop} {gs : List Nat}
  {isLast : Bool}

/-! ## Numbers -/

theorem numberOf?_snoc (base : Nat) (cs : List Char) (c : Char) :
    numberOf? base (cs ++ [c]) = (numberOf? base cs).bind fun n =>
      (Text.hexValue? c).bind fun d => if d < base then some (n * base + d) else none := by
  simp [numberOf?]

theorem hexValue?_digitChar : ∀ n : Fin 16, Text.hexValue? (Nat.digitChar n) = some n.val := by
  decide

theorem numberOf?_toDigits (hone : 1 < base) (hbase : base ≤ 16) (n : Nat) :
    numberOf? base (Nat.toDigits base n) = some n := by
  induction n using Nat.strongRecOn with
  | ind n ih =>
    by_cases hn : n < base
    · have hdigit := hexValue?_digitChar ⟨n, by omega⟩
      rw [Nat.toDigits_of_lt_base hn]
      simp_all [numberOf?]
    · have hmod : n % base < base := Nat.mod_lt _ (by omega)
      have hdigit := hexValue?_digitChar ⟨n % base, by omega⟩
      rw [Nat.toDigits_of_base_le hone (by omega), numberOf?_snoc,
        ih (n / base) (Nat.div_lt_self (by omega) hone)]
      simp_all [Nat.div_add_mod']

theorem lt_of_numberOf? (h : numberOf? base cs = some n) : n < base ^ cs.length := by
  induction cs using List.reverseRecOn generalizing n with
  | nil =>
    obtain rfl : 0 = n := by simpa [numberOf?] using h
    simp
  | append_singleton cs c ih =>
    rw [numberOf?_snoc] at h
    obtain ⟨m, hm, h⟩ := Option.bind_eq_some_iff.1 h
    obtain ⟨d, -, h⟩ := Option.bind_eq_some_iff.1 h
    split at h
    · cases h
      have := ih hm
      rw [List.length_append]
      calc m * base + d < m * base + base := by omega
        _ = (m + 1) * base := (Nat.succ_mul m base).symm
        _ ≤ base ^ cs.length * base := Nat.mul_le_mul_right _ this
    · cases h

theorem forall_mem_toDigits (hone : 1 < base) (hbase : base ≤ 16)
    (hp : ∀ d : Fin 16, p (Nat.digitChar d)) : ∀ c ∈ Nat.toDigits base n, p c := by
  induction n using Nat.strongRecOn with
  | ind n ih =>
    by_cases hn : n < base
    · rw [Nat.toDigits_of_lt_base hn]
      simpa using hp ⟨n, by omega⟩
    · have hmod : n % base < base := Nat.mod_lt _ (by omega)
      rw [Nat.toDigits_of_base_le hone (by omega)]
      intro c hc
      rcases List.mem_append.1 hc with hc | hc
      · exact ih (n / base) (Nat.div_lt_self (by omega) hone) c hc
      · rw [List.mem_singleton.1 hc]
        exact hp ⟨n % base, by omega⟩

/-! ## Names -/

theorem toLower_toLower (c : Char) : c.toLower.toLower = c.toLower := by
  by_cases hc : c.toNat < 128
  · exact forall_ascii (p := fun c => c.toLower.toLower = c.toLower) (by decide +kernel) c hc
  · have : c.toLower = c := by
      refine dif_neg fun h => hc ?_
      have := UInt32.le_iff_toNat_le.1 h.2
      exact Nat.lt_of_le_of_lt this (by decide)
    rw [this, this]

/-- What is written in a name. -/
structure IsName (cs : List Char) : Prop where
  nonempty : cs ≠ []
  ascii : ∀ c ∈ cs, c.toNat < 128
  allowed : ∀ c ∈ cs, isForbiddenInName c = false
  lower : cs.map Char.toLower = cs

theorem specialHost_of_isName (h : IsName cs) :
    specialHost cs = if endsInNumber cs then ipv4 cs else .ok cs := by
  have hpercent : ∀ c ∈ cs, c ≠ '%' := by
    rintro c hc rfl
    simpa [isForbiddenInName] using h.allowed _ hc
  have hdecode : Text.Utf8.decodeLossy (decodeBytes cs) = cs := by
    rw [decodeBytes_of_encodes (encodes_self hpercent), Text.Utf8.decodeLossy_encode]
  unfold specialHost
  split
  · simpa [isForbiddenInName, isForbidden] using h.allowed '[' (by simp)
  · have hempty : cs.isEmpty = false := by simpa using h.nonempty
    have hascii : (cs.any fun c => decide (c.toNat ≥ 0x80)) = false := by
      simpa using fun c hc => h.ascii c hc
    have hallowed : cs.any isForbiddenInName = false := by simpa using h.allowed
    simp [hdecode, h.lower, hempty, hascii, hallowed]

/-! ## Addresses of four numbers -/

theorem mapM_spec {α β : Type} {f : α → Option β} {l : List α} {l' : List β}
    (h : l.mapM f = some l') : l'.length = l.length ∧ ∀ y ∈ l', ∃ x ∈ l, f x = some y := by
  induction l generalizing l' with
  | nil => simp_all
  | cons x l ih =>
    simp only [List.mapM_cons, Option.bind_eq_bind, Option.bind_eq_some_iff] at h
    obtain ⟨y, hy, ys, hys, h⟩ := h
    cases h
    obtain ⟨hlen, hmem⟩ := ih hys
    refine ⟨by simp [hlen], fun z hz => ?_⟩
    rcases List.mem_cons.1 hz with rfl | hz
    · exact ⟨x, by simp, hy⟩
    · obtain ⟨w, hw, hz⟩ := hmem z hz
      exact ⟨w, by simp [hw], hz⟩

theorem ipv4Part?_toDigits : ∀ k : Fin 256, ipv4Part? (Nat.toDigits 10 k) = some k.val := by
  decide +kernel

theorem dottedParts_ipv4Text : dottedParts (ipv4Text n) =
    [Nat.toDigits 10 (n / 16777216), Nat.toDigits 10 (n / 65536 % 256),
      Nat.toDigits 10 (n / 256 % 256), Nat.toDigits 10 (n % 256)] := by
  have hdot : ∀ k, ∀ c ∈ Nat.toDigits 10 k, c ≠ '.' := by
    rintro k c hc rfl
    exact absurd (Nat.isDigit_of_mem_toDigits (by decide) (by decide) hc) (by decide)
  have hsplit : splitOn '.' (ipv4Text n) = [Nat.toDigits 10 (n / 16777216),
      Nat.toDigits 10 (n / 65536 % 256), Nat.toDigits 10 (n / 256 % 256), Nat.toDigits 10 (n % 256)] := by
    rw [ipv4Text, splitOn_append (hdot _), splitOn_append (hdot _), splitOn_append (hdot _),
      splitOn_eq_self (hdot _)]
  simp [dottedParts, hsplit]

theorem ipv4_ipv4Text (hn : n < 4294967296) : ipv4 (ipv4Text n) = .ok (ipv4Text n) := by
  have hpart : ∀ k < 256, ipv4Part? _ = some k := fun k hk =>
    ipv4Part?_toDigits ⟨k, hk⟩
  simp only [ipv4, dottedParts_ipv4Text, List.mapM_cons, hpart (n / 16777216) (by omega), hpart (n / 65536 % 256) (by omega),
    hpart (n / 256 % 256) (by omega), hpart (n % 256) (by omega)]
  have hvalue : n % 256 + n / 16777216 * 16777216 + n / 65536 % 256 * 65536 + n / 256 % 256 * 256 = n := by
    omega
  simp [hvalue]
  omega

theorem exists_ipv4Text (h : ipv4 cs = .ok host) : ∃ n < 4294967296, host = ipv4Text n := by
  unfold ipv4 at h
  dsimp only at h
  split at h
  · cases h
  · split at h
    · cases h
    · rename_i numbers hnumbers
      have := (mapM_spec hnumbers).1
      split at h
      · cases h
      · rename_i hbound
        cases h
        refine ⟨_, ?_, rfl⟩
        match numbers, this with
        | [], _ => simp
        | [a], _ => simp at hbound; simp; omega
        | [a, b], _ => simp at hbound; simp; omega
        | [a, b, c], _ => simp at hbound; simp; omega
        | [a, b, c, d], _ => simp at hbound; simp; omega
        | _ :: _ :: _ :: _ :: _ :: _, hlen' => simp at hlen'; omega

theorem mem_ipv4Text :
    ∀ c ∈ ipv4Text n, isForbiddenInName c = false ∧ c.toNat < 128 ∧ c.toLower = c := by
  have hdigit {k : Nat} {c : Char} (hc : c ∈ Nat.toDigits 10 k) :
      isForbiddenInName c = false ∧ c.toNat < 128 ∧ c.toLower = c :=
    forall_mem_toDigits (p := fun c => isForbiddenInName c = false ∧ c.toNat < 128 ∧ c.toLower = c)
      (by decide) (by decide) (by decide) c hc
  have hdot : isForbiddenInName '.' = false ∧ '.'.toNat < 128 ∧ '.'.toLower = '.' := by decide
  intro c hc
  simp only [ipv4Text, List.mem_append, List.mem_cons] at hc
  rcases hc with hc | rfl | hc | rfl | hc | rfl | hc
  all_goals first | exact hdot | exact hdigit hc

theorem specialHost_ipv4Text (hn : n < 4294967296) :
    specialHost (ipv4Text n) = .ok (ipv4Text n) := by
  have hchar := @mem_ipv4Text n
  have hname : IsName (ipv4Text n) :=
    ⟨by simp [ipv4Text], fun c hc => (hchar c hc).2.1, fun c hc => (hchar c hc).1,
      (List.map_congr_left fun c hc => (hchar c hc).2.2).trans (List.map_id _)⟩
  have hends : endsInNumber (ipv4Text n) = true := by
    simp only [endsInNumber, dottedParts_ipv4Text]
    have : (Nat.toDigits 10 (n % 256)).all Char.isDigit := List.all_eq_true.2 fun c hc =>
      Nat.isDigit_of_mem_toDigits (by decide) (by decide) hc
    simp [this]
  rw [specialHost_of_isName hname, hends, if_pos rfl, ipv4_ipv4Text hn]

/-! ## Addresses of eight groups -/

theorem groupsText_cons (g g' : Nat) (gs : List Nat) :
    groupsText (g :: g' :: gs) = Nat.toDigits 16 g ++ ':' :: groupsText (g' :: gs) := by
  simp [groupsText]

theorem groupsText_singleton (g : Nat) : groupsText [g] = Nat.toDigits 16 g := by
  simp [groupsText]

theorem ne_colon {g : Nat} : ∀ c ∈ Nat.toDigits 16 g, c ≠ ':' ∧ c ≠ '.' :=
  forall_mem_toDigits (by decide) (by decide) (by decide)

theorem splitOn_groupsText (h : gs ≠ []) :
    splitOn ':' (groupsText gs) = gs.map (Nat.toDigits 16) := by
  induction gs with
  | nil => exact absurd rfl h
  | cons g gs ih =>
    cases gs with
    | nil => rw [groupsText_singleton, splitOn_eq_self fun c hc => (ne_colon c hc).1]; rfl
    | cons g' gs =>
      rw [groupsText_cons, splitOn_append (fun c hc => (ne_colon c hc).1), ih (by simp)]
      rfl

theorem groups_toDigits (h : ∀ g ∈ gs, g < 65536) :
    ipv6Groups?.groups isLast (gs.map (Nat.toDigits 16)) = some gs := by
  induction gs with
  | nil => rfl
  | cons g gs ih =>
    have hdot : (Nat.toDigits 16 g).contains '.' = false := by
      simpa using fun hc => (ne_colon '.' hc).2 rfl
    have hlen : (Nat.toDigits 16 g).length ≤ 4 :=
      (Nat.length_toDigits_le_iff (by decide) (by decide)).2 (h g (by simp))
    simp only [List.map_cons, ipv6Groups?.groups, hdot, numberOf?_toDigits (show 1 < 16 by decide) (by decide), ih fun x hx => h x (by simp [hx])]
    simp [hlen]

theorem ipv6Groups?_groupsText (h : ∀ g ∈ gs, g < 65536) :
    ipv6Groups? isLast (groupsText gs) = some gs := by
  by_cases hgs : gs = []
  · subst hgs
    rfl
  · have hne : (groupsText gs).isEmpty = false := by
      cases htext : groupsText gs with
      | nil =>
        have hsplit := splitOn_groupsText hgs
        rw [htext] at hsplit
        cases gs with
        | nil => exact absurd rfl hgs
        | cons g gs => exact absurd (List.cons.inj hsplit).1.symm Nat.toDigits_ne_nil
      | cons c cs => rfl
    unfold ipv6Groups?
    rw [hne, splitOn_groupsText hgs]
    exact groups_toDigits h

theorem splitDouble_append {a : List Char} (ha : ∀ c ∈ a, c ≠ ':') (t : List Char) :
    splitDouble (a ++ t) = (splitDouble t).map fun p => (a ++ p.1, p.2) := by
  induction a with
  | nil => simp
  | cons c a ih =>
    rw [List.cons_append, splitDouble, ih fun x hx => ha x (by simp [hx])]
    · simp [Function.comp_def]
    · rintro _ rfl
      exact absurd rfl (ha ':' (by simp))

theorem splitDouble_groupsText (gs : List Nat) (t : List Char) :
    splitDouble (groupsText gs ++ t) = (splitDouble t).map fun p => (groupsText gs ++ p.1, p.2) := by
  induction gs with
  | nil => simp [groupsText]
  | cons g gs ih =>
    cases gs with
    | nil => rw [groupsText_singleton, splitDouble_append fun c hc => (ne_colon c hc).1]
    | cons g' gs =>
      -- behind a colon stands a digit
      obtain ⟨tail, htail⟩ : ∃ tail, groupsText (g' :: gs) = Nat.toDigits 16 g' ++ tail := by
        cases gs with
        | nil => exact ⟨[], by simp [groupsText_singleton]⟩
        | cons g'' gs => exact ⟨_, groupsText_cons g' g'' gs⟩
      rw [groupsText_cons, List.append_assoc, splitDouble_append fun c hc => (ne_colon c hc).1,
        List.cons_append, splitDouble, ih]
      · simp [Function.comp_def]
      · intro rest _ heq
        rw [htail] at heq
        cases hd : Nat.toDigits 16 g' with
        | nil => exact absurd hd Nat.toDigits_ne_nil
        | cons c cs =>
          rw [hd] at heq
          exact (ne_colon c (hd ▸ List.mem_cons_self)).1 (List.cons.inj heq).1

theorem zeroRun_spec (gs : List Nat) : List.replicate (zeroRun gs) 0 ++ gs.drop (zeroRun gs) = gs := by
  induction gs with
  | nil => rfl
  | cons g gs ih =>
    by_cases hg : g = 0
    · subst hg
      have : zeroRun (0 :: gs) = zeroRun gs + 1 := by simp [zeroRun]
      rw [this, List.replicate_succ, List.drop_succ_cons, List.cons_append, ih]
    · simp [zeroRun, hg]

theorem longestZeros_spec {i : Nat} (h : longestZeros gs = some (i, n)) :
    2 ≤ n ∧ gs.take i ++ (List.replicate n 0 ++ gs.drop (i + n)) = gs := by
  have hrun : 2 ≤ n ∧ n = zeroRun (gs.drop i) := by
    have hfold : ∀ p, longestZeros gs = some p → 2 ≤ p.2 ∧ p.2 = zeroRun (gs.drop p.1) := by
      refine List.foldlRecOn (motive := fun best : Option (Nat × Nat) => ∀ p, best = some p →
        2 ≤ p.2 ∧ p.2 = zeroRun (gs.drop p.1)) _ _ (by simp) ?_
      intro best hbest i _ p hp
      dsimp only at hp
      split at hp
      · rename_i j m
        have := hbest (j, m) rfl
        split at hp <;> cases hp
        · exact ⟨by omega, rfl⟩
        · exact this
      · split at hp <;> cases hp
        exact ⟨‹_›, rfl⟩
    exact hfold (i, n) h
  refine ⟨hrun.1, ?_⟩
  rw [← List.drop_drop, hrun.2, zeroRun_spec, List.take_append_drop]

theorem ipv6Parts?_ipv6Text (hlen : gs.length = 8) (h : ∀ g ∈ gs, g < 65536) :
    ipv6Parts? (ipv6Text gs) = some gs := by
  unfold ipv6Text
  split
  · have := splitDouble_groupsText gs []
    simp only [List.append_nil, splitDouble] at this
    simp [ipv6Parts?, this, ipv6Groups?_groupsText h, hlen]
  · rename_i i n hzeros
    obtain ⟨htwo, hgs⟩ := longestZeros_spec hzeros
    have := splitDouble_groupsText (gs.take i) (':' :: ':' :: groupsText (gs.drop (i + n)))
    simp only [splitDouble, Option.map_some, List.append_nil] at this
    have hfront : ipv6Groups? false _ = some (gs.take i) :=
      ipv6Groups?_groupsText fun g hg => h g (List.mem_of_mem_take hg)
    have hback : ipv6Groups? true (groupsText (gs.drop (i + n))) = some _ :=
      ipv6Groups?_groupsText fun g hg => h g (List.mem_of_mem_drop hg)
    have hcount := congrArg List.length hgs
    simp only [List.length_append, List.length_replicate] at hcount
    simp only [ipv6Parts?, this, hfront, hback, Option.bind_eq_bind, Option.bind_some]
    rw [if_pos (by omega), show 8 - (gs.take i).length - (gs.drop (i + n)).length = n by omega,
      List.append_assoc, hgs]

theorem ipv6Groups?_spec (h : ipv6Groups? isLast cs = some gs) : ∀ g ∈ gs, g < 65536 := by
  have hgroups : ∀ (parts : List (List Char)) (gs : List Nat),
      ipv6Groups?.groups isLast parts = some gs → ∀ g ∈ gs, g < 65536 := by
    intro parts
    induction parts with
    | nil =>
      rintro _ ⟨⟩
      simp
    | cons part rest ih =>
      intro gs h
      rw [ipv6Groups?.groups] at h
      split at h
      · -- the last four numbers
        obtain ⟨bytes, hbytes, h⟩ := Option.bind_eq_some_iff.1 h
        have hle : ∀ b ∈ bytes, b ≤ 255 := by
          unfold ipv4Bytes? at hbytes
          dsimp only at hbytes
          split at hbytes
          · cases hbytes
          · intro b hb
            obtain ⟨x, -, hx⟩ := (mapM_spec hbytes).2 b hb
            split at hx
            · cases hx
            · obtain ⟨n, -, hn⟩ := Option.bind_eq_some_iff.1 hx
              split at hn <;> cases hn
              assumption
        split at h
        · cases h
          simp at hle ⊢
          omega
        · cases h
      · split at h
        · cases h
        · rename_i hlen
          obtain ⟨n, hn, h⟩ := Option.bind_eq_some_iff.1 h
          obtain ⟨ns, hns, h⟩ := Option.bind_eq_some_iff.1 h
          cases h
          have hfour : part.length ≤ 4 := by
            simp at hlen
            omega
          have hlt : n < 16 ^ 4 :=
            (lt_of_numberOf? hn).trans_le (Nat.pow_le_pow_right (by decide) hfour)
          simpa using ⟨hlt, ih ns hns⟩
  unfold ipv6Groups? at h
  split at h
  · cases h
    simp
  · exact hgroups _ gs h

theorem ipv6Parts?_spec (h : ipv6Parts? cs = some gs) : gs.length = 8 ∧ ∀ g ∈ gs, g < 65536 := by
  unfold ipv6Parts? at h
  split at h
  · obtain ⟨groups, hgroups, h⟩ := Option.bind_eq_some_iff.1 h
    split at h <;> cases h
    exact ⟨‹_›, ipv6Groups?_spec hgroups⟩
  · obtain ⟨a, ha, h⟩ := Option.bind_eq_some_iff.1 h
    obtain ⟨b, hb, h⟩ := Option.bind_eq_some_iff.1 h
    split at h <;> cases h
    refine ⟨by simp; omega, fun g hg => ?_⟩
    rcases List.mem_append.1 hg with hg | hg
    · rcases List.mem_append.1 hg with hg | hg
      · exact ipv6Groups?_spec ha g hg
      · rw [List.eq_of_mem_replicate hg]
        decide
    · exact ipv6Groups?_spec hb g hg

/-! ## Hosts -/

def isPlain (c : Char) : Bool := 0x20 < c.toNat && !(['/', '\\', '?', '#'].contains c)

/-- A host as it is written: it ends where the port starts, and reading keeps it. -/
structure IsHost (read : List Char → Except Fault (List Char)) (host : List Char) : Prop where
  fixed : read host = .ok host
  char : ∀ c ∈ host, isPlain c = true ∧ c ≠ '@'
  split : ∀ port : Option (List Char), splitPort false (host ++ markedText ':' port) = (host, port)

theorem isPlain_of_allowed (h : isForbidden c = false) (hc : 0x20 ≤ c.toNat) :
    isPlain c = true ∧ c ≠ '@' := by
  have hne : c.toNat ≠ 0x20 := by
    intro heq
    obtain rfl : c = ' ' := Char.ext (UInt32.toNat_inj.1 heq)
    exact absurd h (by decide)
  have hlt : 0x20 < c.toNat := by omega
  simp_all [isPlain, isForbidden]

theorem splitPort_markedText (port : Option (List Char)) :
    splitPort false (markedText ':' port) = ([], port) := by
  cases port with
  | none => rfl
  | some ds => simp [markedText, splitPort]

theorem splitPort_of_allowed (h : ∀ c ∈ cs, isForbidden c = false) (port : Option (List Char)) :
    splitPort false (cs ++ markedText ':' port) = (cs, port) := by
  induction cs with
  | nil => exact splitPort_markedText port
  | cons c cs ih =>
    have hc : c ≠ ':' ∧ c ≠ '[' := by
      have := h c (by simp)
      constructor <;> rintro rfl <;> revert this <;> decide
    simp [splitPort, hc, ih fun x hx => h x (by simp [hx])]

theorem splitPort_brackets (h : ∀ c ∈ cs, c ≠ ']') (port : Option (List Char)) :
    splitPort true (cs ++ (']' :: markedText ':' port)) = (cs ++ [']'], port) := by
  induction cs with
  | nil => simp [splitPort, splitPort_markedText]
  | cons c cs ih =>
    have hc : (c != ']') = true := by simpa using h c (by simp)
    simp [splitPort, hc, ih fun x hx => h x (by simp [hx])]

theorem forall_mem_ipv6Text (hcolon : p ':')
    (hdigit : ∀ d : Fin 16, p (Nat.digitChar d)) (gs : List Nat) : ∀ c ∈ ipv6Text gs, p c := by
  have hgroups : ∀ gs, ∀ c ∈ groupsText gs, p c := by
    intro gs
    induction gs with
    | nil => simp [groupsText]
    | cons g gs ih =>
      have hg : ∀ c ∈ Nat.toDigits 16 g, p c := forall_mem_toDigits (by decide) (by decide) hdigit
      cases gs with
      | nil => rwa [groupsText_singleton]
      | cons g' gs =>
        exact List.forall_mem_append.2 ⟨hg, List.forall_mem_cons.2 ⟨hcolon, ih⟩⟩
  unfold ipv6Text
  split
  · exact hgroups gs
  · exact List.forall_mem_append.2 ⟨hgroups _, List.forall_mem_cons.2 ⟨hcolon,
      List.forall_mem_cons.2 ⟨hcolon, hgroups _⟩⟩⟩

theorem ipv6_isHost {read : List Char → Except Fault (List Char)}
    (hread : ∀ rest, read ('[' :: rest) = ipv6 rest) (h : ipv6 cs = .ok host) : IsHost read host := by
  obtain ⟨gs, hgs, rfl⟩ : ∃ gs, (gs.length = 8 ∧ ∀ g ∈ gs, g < 65536) ∧
      host = '[' :: ipv6Text gs ++ [']'] := by
    unfold ipv6 at h
    split at h
    · split at h
      · cases h
        exact ⟨_, ipv6Parts?_spec ‹_›, rfl⟩
      · cases h
    · cases h
  have hchar := forall_mem_ipv6Text (p := fun c => (isPlain c = true ∧ c ≠ '@') ∧ c ≠ ']')
    (by decide) (by decide) gs
  have hbracket : ∀ c ∈ ['[', ']'], isPlain c = true ∧ c ≠ '@' := by simp [isPlain]
  refine ⟨?_, ?_, fun port => ?_⟩
  · simp [hread, ipv6, ipv6Parts?_ipv6Text hgs.1 hgs.2]
  · exact List.forall_mem_cons.2 ⟨hbracket '[' (by simp), List.forall_mem_append.2
      ⟨fun c hc => (hchar c hc).1, fun c hc => hbracket c (by simp_all)⟩⟩
  · have := splitPort_brackets (fun c hc => (hchar c hc).2) port
    simp [splitPort, this]

theorem specialHost_isHost (h : specialHost cs = .ok host) : IsHost specialHost host := by
  have hname {name : List Char} (h : ∀ c ∈ name, isForbiddenInName c = false)
      (hfixed : specialHost name = .ok name) : IsHost specialHost name := by
    have hallowed : ∀ c ∈ name, isForbidden c = false := fun c hc => by
      have := h c hc
      simp only [isForbiddenInName, Bool.or_eq_false_iff] at this
      exact this.1.1.1
    refine ⟨hfixed, fun c hc => isPlain_of_allowed (hallowed c hc) ?_, splitPort_of_allowed hallowed⟩
    have := h c hc
    simp only [isForbiddenInName, Bool.or_eq_false_iff, decide_eq_false_iff_not] at this
    omega
  unfold specialHost at h
  split at h
  · exact ipv6_isHost (fun _ => rfl) h
  · dsimp only at h
    generalize hlower : (Text.Utf8.decodeLossy _).map Char.toLower = name at h
    split at h
    · cases h
    · split at h
      · cases h
      · split at h
        · cases h
        · rename_i hempty hascii hallowed
          have hisName : IsName name := by
            refine ⟨by simpa using hempty, by simpa using hascii, by simpa using hallowed, ?_⟩
            rw [← hlower, List.map_map]
            exact List.map_congr_left fun c _ => toLower_toLower c
          split at h
          · obtain ⟨n, hn, rfl⟩ := exists_ipv4Text h
            exact hname (fun c hc => (mem_ipv4Text c hc).1) (specialHost_ipv4Text hn)
          · cases h
            refine hname hisName.allowed ?_
            rw [specialHost_of_isName hisName, if_neg ‹_›]

theorem opaqueHost_isHost (h : opaqueHost cs = .ok host) : IsHost opaqueHost host := by
  unfold opaqueHost at h
  split at h
  · exact ipv6_isHost (fun _ => rfl) h
  · split at h
    · cases h
    · cases h
      have hchar : ∀ c ∈ encode isControl cs, isControl c = false ∧ isForbidden c = false :=
        forall_mem_encode (by decide) fun c hc hcontrol => ⟨hcontrol, by simp_all⟩
      refine ⟨?_, fun c hc => isPlain_of_allowed (hchar c hc).2 ?_,
        splitPort_of_allowed fun c hc => (hchar c hc).2⟩
      swap
      · have := (hchar c hc).1
        simp only [isControl, Bool.or_eq_false_iff, decide_eq_false_iff_not] at this
        omega
      unfold opaqueHost
      split
      · rename_i rest heq
        exact absurd (hchar '[' (by simp [heq])).2 (by decide)
      · have hany : (encode isControl cs).any isForbidden = false := by
          simpa using fun c hc => (hchar c hc).2
        rw [hany, encode_eq_self fun c hc => (hchar c hc).1]
        rfl

end SchemaCompiler.Url

import SchemaCompiler.Proofs.Run
import SchemaCompiler.Proofs.Url.Host

/-!
# URLs as they are written

Whatever is read as a URL, on its own or relative to another, is in a normal form. The text of a URL
in normal form is read as the same URL, so that a URL without its fragment has one text.
-/
namespace SchemaCompiler.Url

variable {scheme text : String} {c : Char} {cs rest host : List Char} {a : Authority}
  {u base : Parts} {place : Place} {segments : List (List Char)} {query : Option (List Char)}

/-! ## Schemes -/

/-- A scheme as it is written. -/
structure IsScheme (scheme : String) : Prop where
  first : ∃ c cs, scheme.toList = c :: cs ∧ c.isAlpha = true
  char : ∀ c ∈ scheme.toList, isSchemeChar c = true ∧ c.toLower = c

theorem toNat_lt_of_isSchemeChar (h : isSchemeChar c = true) : c.toNat < 128 := by
  delta isSchemeChar Char.isAlphanum Char.isAlpha Char.isUpper Char.isLower Char.isDigit at h
  simp only [Bool.or_eq_true, beq_iff_eq, UInt32.le_iff_toNat_le] at h
  rcases h with (((((h | h) | h) | rfl) | rfl) | rfl)
  all_goals first | decide | (simp at h; omega)

theorem isSchemeChar_toLower : ∀ c, isSchemeChar c = true → isSchemeChar c.toLower = true ∧
    (c.isAlpha = true → c.toLower.isAlpha = true) ∧ 0x20 < c.toNat :=
  fun c h => forall_ascii (p := fun c => isSchemeChar c = true → isSchemeChar c.toLower = true ∧
    (c.isAlpha = true → c.toLower.isAlpha = true) ∧ 0x20 < c.toNat) (by decide +kernel) c
    (toNat_lt_of_isSchemeChar h) h

theorem isScheme_of_splitScheme (h : splitScheme cs = some (scheme, rest)) : IsScheme scheme := by
  unfold splitScheme at h
  split at h
  · rename_i c tail
    split at h
    · rename_i halpha
      split at h
      · cases h
        have hfirst : isSchemeChar c = true := by simp [isSchemeChar, Char.isAlphanum, halpha]
        refine ⟨⟨c.toLower, (tail.takeWhile isSchemeChar).map Char.toLower, ?_,
          (isSchemeChar_toLower c hfirst).2.1 halpha⟩, ?_⟩
        · simp [hfirst]
        · intro x hx
          rw [String.toList_ofList] at hx
          obtain ⟨y, hy, rfl⟩ := List.mem_map.1 hx
          exact ⟨(isSchemeChar_toLower y (List.mem_takeWhile_imp hy)).1, toLower_toLower y⟩
      · cases h
    · cases h
  · cases h

/-- An authority that stays as it is when it is read. -/
structure Authority.Normal (scheme : String) (a : Authority) : Prop where
  fixed : readAuthority scheme a.text = .ok a
  char : ∀ c ∈ a.text, isPlain c = true

theorem readPort_toDigits {n : Nat} (hle : n ≤ 65535) (hdefault : defaultPort scheme ≠ some n) :
    readPort scheme (Nat.toDigits 10 n) = .ok (some n) := by
  have hall : (Nat.toDigits 10 n).all Char.isDigit := List.all_eq_true.2 fun c hc =>
    Nat.isDigit_of_mem_toDigits (by decide) (by decide) hc
  have hvalue : (Nat.toDigits 10 n).foldl (fun n c => n * 10 + (c.toNat - 48)) 0 = n := by
    have hfold : (fun n (c : Char) => n * 10 + (c.toNat - 48)) =
        fun n c => 10 * n + (c.toNat - '0'.toNat) := by
      funext n c
      rw [Nat.mul_comm]
      rfl
    rw [hfold]
    exact Nat.ofDigitChars_ten_toDigits
  simp only [readPort, hall, hvalue]
  simp [hdefault]
  omega

theorem readPort_spec {port : Option Nat} (h : readPort scheme cs = .ok port) :
    ∀ n ∈ port, n ≤ 65535 ∧ defaultPort scheme ≠ some n := by
  unfold readPort at h
  split at h
  · dsimp only at h
    split at h
    · cases h
    · split at h
      · cases h
        nofun
      · cases h
        simp_all
  · cases h

theorem readHost_isHost (h : readHost scheme cs = .ok host) : IsHost (readHost scheme) host := by
  unfold readHost at h ⊢
  split at h
  · simpa [*] using specialHost_isHost h
  · simpa [*] using opaqueHost_isHost h

/-- What is known of an authority that has been read. -/
structure Authority.Sound (scheme : String) (a : Authority) : Prop where
  username : ∀ c ∈ a.username, inUserSet c = false
  password : ∀ c ∈ a.password, inUserSet c = false
  host : IsHost (readHost scheme) a.host
  port : ∀ n ∈ a.port, n ≤ 65535 ∧ defaultPort scheme ≠ some n
  nonempty : a.host = [] → a.userText = [] ∧ a.port = none ∧ isSpecial scheme = false

theorem splitUser_append {user place : List Char} (h : ∀ c ∈ place, c ≠ '@') :
    splitUser (user ++ '@' :: place) = (some user, place) := by
  have hsplit : upTo (· == '@') (user ++ '@' :: place).reverse = (place.reverse, '@' :: user.reverse) := by
    rw [List.reverse_append, List.reverse_cons, List.append_assoc]
    exact upTo_append (by simpa using h) (by simp)
  simp only [splitUser, hsplit, List.reverse_reverse]

theorem splitUser_eq_self {place : List Char} (h : ∀ c ∈ place, c ≠ '@') :
    splitUser place = (none, place) := by
  have hsplit : upTo (· == '@') place.reverse = (place.reverse, []) := upTo_eq_self (by simpa using h)
  simp only [splitUser, hsplit]

theorem mem_portText (port : Option Nat) :
    ∀ c ∈ markedText ':' (port.map (Nat.toDigits 10)), isPlain c = true ∧ c ≠ '@' := by
  cases port with
  | none => simp [markedText]
  | some n =>
    have hdigits : ∀ c ∈ Nat.toDigits 10 n, isPlain c = true ∧ c ≠ '@' :=
      forall_mem_toDigits (by decide) (by decide) (by decide)
    exact List.forall_mem_cons.2 ⟨by decide, hdigits⟩

theorem Authority.Sound.fixed (h : a.Sound scheme) (hfile : scheme ≠ "file") :
    readAuthority scheme a.text = .ok a := by
  have hplace : ∀ c ∈ a.host ++ markedText ':' (a.port.map _), c ≠ '@' :=
    List.forall_mem_append.2 ⟨fun c hc => (h.host.char c hc).2, fun c hc => (mem_portText _ c hc).2⟩
  have hport : readPort scheme ((a.port.map (Nat.toDigits 10)).getD []) = .ok a.port := by
    cases hp : a.port with
    | none => rfl
    | some n => exact readPort_toDigits (h.port n hp).1 (h.port n hp).2
  have hempty : (a.host.isEmpty && ((a.port.map (Nat.toDigits 10)).isSome || !a.userText.isEmpty ||
      isSpecial scheme)) = false := by
    by_cases hhost : a.host = []
    · obtain ⟨huser, hnone, hspecial⟩ := h.nonempty hhost
      simp [huser, hnone, hspecial]
    · simp [hhost]
  -- the user is read from what stands in front of the at sign
  have huser : ∃ user, splitUser a.text =
        (user, a.host ++ markedText ':' (a.port.map (Nat.toDigits 10))) ∧
      user.isSome = !a.userText.isEmpty ∧
      encode inUserSet (upTo (· == ':') (user.getD [])).1 = a.username ∧
      encode inUserSet ((upTo (· == ':') (user.getD [])).2.drop 1) = a.password := by
    unfold Authority.text
    unfold Authority.userText
    split
    · rename_i hnone
      simp only [Bool.and_eq_true, List.isEmpty_iff] at hnone
      exact ⟨none, splitUser_eq_self hplace, rfl, hnone.1.symm, hnone.2.symm⟩
    · have hcolon : ∀ c ∈ a.username, (c == ':') = false := by
        intro c hc
        have := h.username c hc
        simp_all [inUserSet]
      have hsplit : upTo (· == ':') (a.username ++ if a.password.isEmpty then [] else ':' :: a.password)
          = (a.username, if a.password.isEmpty then [] else ':' :: a.password) := by
        refine upTo_append hcolon ?_
        split <;> simp
      refine ⟨some (a.username ++ if a.password.isEmpty then [] else ':' :: a.password), ?_, ?_, ?_, ?_⟩
      · rw [List.append_assoc]
        exact splitUser_append hplace
      · simp
      · rw [Option.getD_some, hsplit]
        exact encode_eq_self h.username
      · rw [Option.getD_some, hsplit]
        split
        · simp_all [encode]
        · exact encode_eq_self h.password
  obtain ⟨user, hsplit, hsome, hname, hsecret⟩ := huser
  rw [← hsome] at hempty
  simp only [readAuthority, beq_iff_eq, hfile, hsplit, h.host.split, hempty,
    h.host.fixed, hport, hname, hsecret]
  rfl

theorem Authority.Sound.char (h : a.Sound scheme) : ∀ c ∈ a.text, isPlain c = true := by
  have huser : ∀ c, inUserSet c = false → isPlain c = true :=
    of_not_inSet (fun c hc => by simp [inUserSet, inPathSet, inFragmentSet, hc]) (by decide +kernel)
  refine List.forall_mem_append.2 ⟨?_, List.forall_mem_append.2
    ⟨fun c hc => (h.host.char c hc).1, fun c hc => (mem_portText _ c hc).1⟩⟩
  unfold Authority.userText
  split
  · simp
  · refine List.forall_mem_append.2 ⟨List.forall_mem_append.2
      ⟨fun c hc => huser c (h.username c hc), ?_⟩, by simp [isPlain]⟩
    split
    · simp
    · exact List.forall_mem_cons.2 ⟨by decide, fun c hc => huser c (h.password c hc)⟩

theorem fileHost_spec (h : fileHost cs = .ok host) :
    fileHost host = .ok host ∧ ∀ c ∈ host, isPlain c = true := by
  unfold fileHost at h
  split at h
  · cases h
    exact ⟨rfl, by simp⟩
  · cases hspecial : specialHost cs with
    | error e =>
      rw [hspecial] at h
      cases h
    | ok name =>
      rw [hspecial] at h
      cases h
      dsimp only
      split
      · exact ⟨rfl, by simp⟩
      · rename_i hlocal
        have hhost := specialHost_isHost hspecial
        have hne : name ≠ [] := by
          rintro rfl
          exact absurd hhost.fixed nofun
        refine ⟨?_, fun c hc => (hhost.char c hc).1⟩
        simp only [fileHost, List.isEmpty_iff, hne, if_false, hhost.fixed, Except.map, hlocal]

theorem eq_nil_of_readHost (h : readHost scheme cs = .ok []) : isSpecial scheme = false ∧ cs = [] := by
  have hfixed := (readHost_isHost h).fixed
  unfold readHost at h hfixed
  split at h
  · rw [if_pos ‹_›] at hfixed
    exact absurd hfixed nofun
  · rename_i hspecial
    refine ⟨by simpa using hspecial, ?_⟩
    unfold opaqueHost at h
    split at h
    · unfold ipv6 at h
      split at h
      · split at h <;> cases h
      · cases h
    · split at h
      · cases h
      · exact encode_eq_nil (Except.ok.inj h)

theorem readAuthority_normal (h : readAuthority scheme cs = .ok a) : a.Normal scheme := by
  unfold readAuthority at h
  split at h
  · rename_i hfile
    obtain ⟨host, hhost, h⟩ := bind_eq_ok.1 h
    cases h
    have htext : Authority.text ⟨[], [], host, none⟩ = host := by
      simp [Authority.text, Authority.userText, markedText]
    obtain ⟨hfixed, hchar⟩ := fileHost_spec hhost
    refine ⟨?_, by rwa [htext]⟩
    rw [htext, readAuthority, if_pos hfile, hfixed]
    rfl
  · rename_i hfile
    dsimp only at h
    split at h
    · cases h
    · rename_i hempty
      obtain ⟨host, hhost, h⟩ := bind_eq_ok.1 h
      obtain ⟨port, hport, h⟩ := bind_eq_ok.1 h
      have husers : ∀ cs, ∀ c ∈ encode inUserSet cs, inUserSet c = false := fun cs =>
        forall_mem_encode (by decide) fun c _ h => h
      have hsound : a.Sound scheme := by
        cases h
        refine ⟨husers _, husers _, readHost_isHost hhost, readPort_spec hport, ?_⟩
        rintro rfl
        obtain ⟨hspecial, hnil⟩ := eq_nil_of_readHost hhost
        simp only [hnil, hspecial, List.isEmpty_nil, Bool.true_and, Bool.or_false, Bool.or_eq_true,
          not_or, Bool.not_eq_true, Option.isSome_eq_false_iff, Option.isNone_iff_eq_none] at hempty
        rw [hempty.1] at hport
        cases hport
        simp [Authority.userText, hempty.2, upTo, encode, hspecial]
      exact ⟨hsound.fixed (by simpa using hfile), hsound.char⟩

/-! ## The normal form -/

def Place.Normal (scheme : String) : Place → Prop
  | opaquePath p => isSpecial scheme = false ∧ p.head? ≠ some '/' ∧ IsPathText p ∧
      ∀ c ∈ p, isControl c = false
  | rooted segments => isSpecial scheme = false ∧ segments ≠ [] ∧ IsPath scheme segments
  | hosted a segments => a.Normal scheme ∧ (isSpecial scheme = true → segments ≠ []) ∧
      IsPath scheme segments

/-- A URL whose text is read as the same URL, whatever its fragment is. -/
structure Parts.Normal (u : Parts) : Prop where
  scheme : IsScheme u.scheme
  place : u.place.Normal u.scheme
  query : IsQuery u.scheme u.query

theorem isPath_nil : IsPath scheme [] := by
  simp [IsPath]

theorem Place.Normal.isPath (h : place.Normal scheme) : IsPath scheme place.segments := by
  cases place with
  | opaquePath p => exact isPath_nil
  | rooted segments => exact h.2.2
  | hosted a segments => exact h.2.2

theorem Place.Normal.withPath (h : place.Normal scheme)
    (hpath : IsPath scheme segments ∧ segments ≠ []) : (place.withPath segments).Normal scheme := by
  cases place with
  | opaquePath p => exact ⟨h.1, hpath.2, hpath.1⟩
  | rooted segments => exact ⟨h.1, hpath.2, hpath.1⟩
  | hosted a segments => exact ⟨h.1, fun _ => hpath.2, hpath.1⟩

theorem Parts.Normal.withoutFragment (h : u.Normal) : u.withoutFragment.Normal := by
  unfold Parts.withoutFragment
  split
  · rename_i p hplace hquery
    have hp := h.place
    rw [hplace] at hp
    obtain ⟨hspecial, hhead, hpath, hcontrol⟩ := hp
    have hbegin : (p.reverse.dropWhile (· == ' ')).reverse <+: p := by
      rw [← List.reverse_suffix, List.reverse_reverse]
      exact List.dropWhile_suffix _
    refine ⟨h.scheme, ⟨hspecial, fun hslash => hhead ?_, fun c hc => hpath c (hbegin.subset hc),
      fun c hc => hcontrol c (hbegin.subset hc)⟩, h.query⟩
    obtain ⟨t, ht⟩ := hbegin
    rw [← ht, List.head?_append, hslash]
    rfl
  · exact ⟨h.scheme, h.place, h.query⟩

theorem afterSlashes_normal (hscheme : IsScheme scheme) (h : afterSlashes scheme cs = .ok u) :
    u.Normal := by
  obtain ⟨a, ha, h⟩ := bind_eq_ok.1 h
  cases h
  obtain ⟨-, -, hquery⟩ := splitQuery_spec scheme
    (upTo _ cs).2
  refine ⟨hscheme, ⟨readAuthority_normal ha, ?_⟩, hquery⟩
  unfold pathBehind
  split
  · split
    · exact ⟨by simp, by simpa [IsPath] using isSegment_nil⟩
    · exact ⟨fun h => absurd h ‹_›, isPath_nil⟩
  · exact (isPath_follow isPath_nil _).symm.imp_left fun h _ => h

theorem relativeTo_normal (hbase : base.Normal) (h : relativeTo base cs = .ok u) : u.Normal := by
  unfold relativeTo at h
  split at h
  · cases h
    exact hbase.withoutFragment
  · cases h
    exact ⟨hbase.scheme, hbase.place, hbase.query⟩
  · cases h
    exact ⟨hbase.scheme, hbase.place, (splitQuery_spec _ _).2.2⟩
  · split at h
    · dsimp only at h
      split at h
      · exact afterSlashes_normal hbase.scheme h
      · cases h
        exact ⟨hbase.scheme, hbase.place.withPath (isPath_follow isPath_nil _), (splitQuery_spec _ _).2.2⟩
    · cases h
      have hpath : IsPath base.scheme base.place.segments.dropLast := fun s hs =>
        hbase.place.isPath s (List.dropLast_subset _ hs)
      exact ⟨hbase.scheme, hbase.place.withPath (isPath_follow hpath _), (splitQuery_spec _ _).2.2⟩

theorem afterScheme_normal (hscheme : IsScheme scheme) (h : afterScheme scheme cs = .ok u) :
    u.Normal := by
  unfold afterScheme at h
  dsimp only at h
  split at h
  · split at h
    · exact afterSlashes_normal hscheme h
    · rename_i hfile _
      cases h
      have hnil : readAuthority scheme [] = .ok ⟨[], [], [], none⟩ := by
        rw [readAuthority, if_pos hfile]
        rfl
      exact ⟨hscheme, ⟨⟨hnil, by simp [Authority.text, Authority.userText, markedText]⟩,
        fun _ => (isPath_follow isPath_nil _).2, (isPath_follow isPath_nil _).1⟩,
        (splitQuery_spec _ _).2.2⟩
  · split at h
    · exact afterSlashes_normal hscheme h
    · rename_i hspecial
      have hspecial : isSpecial scheme = false := by simpa using hspecial
      split at h
      · exact afterSlashes_normal hscheme h
      · cases h
        exact ⟨hscheme, ⟨hspecial, (isPath_follow isPath_nil _).symm⟩, (splitQuery_spec _ _).2.2⟩
      · rename_i hslashes hslash
        cases h
        obtain ⟨hbegin, hpath, hquery⟩ := splitQuery_spec scheme cs
        refine ⟨hscheme, ⟨hspecial, fun hhead => ?_, ?_, ?_⟩, hquery⟩
        · obtain ⟨t, ht⟩ := hbegin
          have hcs : cs.head? = some '/' := by
            rw [← ht, List.head?_append, head?_encode (by decide) hhead]
            rfl
          obtain ⟨tail, rfl⟩ := List.head?_eq_some_iff.1 hcs
          exact hslash tail rfl
        · exact forall_mem_encode (by decide) fun c hc _ => hpath c hc
        · exact forall_mem_encode (by decide) fun c _ h => h

theorem readFrom_normal {base : Option Parts} (hbase : ∀ b ∈ base, b.Normal)
    (h : readFrom base text = .ok u) : u.Normal := by
  unfold readFrom at h
  dsimp only at h
  split at h
  · exact afterScheme_normal (isScheme_of_splitScheme ‹_›) h
  · split at h
    · exact relativeTo_normal (hbase _ rfl) h
    · exact afterScheme_normal (isScheme_of_splitScheme ‹_›) h
  · cases h
  · have hb := hbase _ rfl
    split at h
    · cases h
      exact ⟨hb.scheme, hb.place, hb.query⟩
    · cases h
    · exact relativeTo_normal hb h

theorem Parts.IsRead.normal (h : u.IsRead) : u.Normal := by
  induction h with
  | own h => exact readFrom_normal (by simp) h
  | joined _ h ih => exact readFrom_normal (by simpa using ih) h
  | withoutFragment _ ih => exact ih.withoutFragment

/-! ## Reading texts -/

end SchemaCompiler.Url

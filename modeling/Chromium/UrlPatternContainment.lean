import Chromium.UrlPattern

/-!
# Containment of URL patterns

A pattern that contains another one is asked only about one URL of the other. The question
decides for all its URLs when the wildcards of the other pattern have their like in it.
-/
namespace Chromium.UrlPattern

/-! ### Paths with one wildcard -/

open Pattern

/-- There is no wildcard but at the end. -/
def OneWildcard (path : Text) : Prop := '*' ∉ path.dropLast

instance (path : Text) : Decidable (OneWildcard path) := inferInstanceAs (Decidable (¬ _))

section Paths
variable {path test : Text}

/-- A path is its text, with the wildcard or without. -/
lemma path_cases (h : OneWildcard path) :
    '*' ∉ stripTrailingWildcard path ∧
      (('*' ∉ path ∧ path = stripTrailingWildcard path) ∨
        ('*' ∈ path ∧ path = stripTrailingWildcard path ++ ['*'])) := by
  rcases List.eq_nil_or_concat' path with rfl | ⟨init, last, rfl⟩
  · decide
  · rw [OneWildcard, List.dropLast_concat] at h
    have hindex : (init ++ [last]).idxOf '*' = init.length + [last].idxOf '*' :=
      List.idxOf_append_of_notMem h
    by_cases hlast : last = '*'
    · subst hlast
      have hstrip : stripTrailingWildcard (init ++ ['*']) = init := by
        rw [stripTrailingWildcard, if_pos (by rw [hindex]; simp), List.dropLast_concat]
      rw [hstrip]
      exact ⟨h, .inr ⟨by simp, rfl⟩⟩
    · have hstrip : stripTrailingWildcard (init ++ [last]) = init ++ [last] := by
        have hfar : [last].idxOf '*' = 1 := List.idxOf_of_notMem (by simpa using Ne.symm hlast)
        rw [stripTrailingWildcard, if_neg]
        rw [hindex, hfar, List.length_append, List.length_singleton]
        omega
      have hnot : '*' ∉ init ++ [last] := by
        simp only [List.mem_append, List.mem_singleton, not_or]
        exact ⟨h, fun heq => hlast heq.symm⟩
      rw [hstrip]
      exact ⟨hnot, .inl ⟨hnot, rfl⟩⟩

@[simp]
lemma escape_append (xs ys : Text) : escape (xs ++ ys) = escape xs ++ escape ys :=
  List.flatMap_append

/-- An escaped character is matched as it is. -/
lemma matchPattern_escapeChar {c : Char} (h : c ≠ '*') (pattern : Text) :
    matchPattern test (escapeChar c ++ pattern) ↔
      ∃ rest, test = c :: rest ∧ matchPattern rest pattern := by
  unfold escapeChar
  split_ifs with hbackslash hquestion
  · subst hbackslash
    cases test <;> simp [matchPattern]
  · subst hquestion
    cases test <;> simp [matchPattern]
  · rw [List.singleton_append, matchPattern.eq_def]
    cases test <;> simp [h, hbackslash, hquestion]

/-- The escaped text is matched as it is. -/
lemma matchPattern_escape (h : '*' ∉ path) (pattern : Text) :
    matchPattern test (escape path ++ pattern) ↔
      ∃ rest, test = path ++ rest ∧ matchPattern rest pattern := by
  induction path generalizing test with
  | nil => simp [escape]
  | cons c path ih =>
    rw [List.mem_cons, not_or] at h
    rw [escape, List.flatMap_cons, List.append_assoc, matchPattern_escapeChar (Ne.symm h.1)]
    constructor
    · rintro ⟨rest, rfl, hrest⟩
      obtain ⟨rest', rfl, hmatch⟩ := (ih h.2).mp hrest
      exact ⟨rest', rfl, hmatch⟩
    · rintro ⟨rest, rfl, hmatch⟩
      exact ⟨path ++ rest, rfl, (ih h.2).mpr ⟨rest, rfl, hmatch⟩⟩

lemma star_notMem_escape (h : '*' ∉ path) : '*' ∉ escape path := by
  intro hmem
  obtain ⟨c, hc, hstar⟩ := List.mem_flatMap.mp hmem
  unfold escapeChar at hstar
  split_ifs at hstar with hbackslash hquestion
  · simp at hstar
  · simp at hstar
  · rw [List.mem_singleton] at hstar
    rw [hstar] at h
    exact h hc

/-- Without a wildcard only the text itself matches. -/
lemma matchesPath_exact {p : Pattern} (hescaped : p.pathEscaped = escape p.path)
    (hstar : '*' ∉ p.path) : p.matchesPath test ↔ test = p.path := by
  have hno : test ++ ['/', '*'] ≠ escape p.path := by
    intro heq
    apply star_notMem_escape hstar
    rw [← heq]
    simp
  have hmatch : matchPattern test (escape p.path ++ []) ↔ _ := matchPattern_escape hstar []
  rw [List.append_nil] at hmatch
  rw [matchesPath, hescaped, Bool.or_eq_true, decide_eq_true_eq, hmatch]
  simp [hno, matchPattern]

/-- With a wildcard the text is the beginning, and it may lack a slash at its end. -/
lemma matchesPath_wildcard {p : Pattern} {text : Text} (hescaped : p.pathEscaped = escape p.path)
    (hpath : p.path = text ++ ['*']) (hstar : '*' ∉ text) :
    p.matchesPath test ↔ test ++ ['/'] = escape text ∨ text <+: test := by
  have hstars : escape ['*'] = ['*'] := rfl
  have hall : ∀ rest : Text, matchPattern rest ['*'] = true := by
    intro rest
    simp only [matchPattern, if_true, List.any_eq_true]
    exact ⟨[], by simp, rfl⟩
  have happend : test ++ ['/', '*'] = test ++ ['/'] ++ ['*'] := by simp
  rw [matchesPath, hescaped, hpath, escape_append, hstars, Bool.or_eq_true, decide_eq_true_eq,
    matchPattern_escape hstar, happend, List.append_left_inj]
  constructor
  · rintro (heq | ⟨rest, rfl, -⟩)
    · exact .inl heq
    · exact .inr (List.prefix_append _ _)
  · rintro (heq | ⟨rest, rfl⟩)
    · exact .inl heq
    · exact .inr ⟨rest, rfl, hall rest⟩

end Paths

/-! ### What parsing gives -/

/-- The fields of a pattern fit together. -/
structure Parsed (p : Pattern) : Prop where
  escaped : p.pathEscaped = escape p.path
  valid : p.matchAllUrls = false → p.scheme ≠ ['*'] → p.isValidScheme p.scheme
  star : p.matchAllUrls = false → p.scheme = ['*'] →
    p.validSchemes &&& (schemeHttp ||| schemeHttps) = p.validSchemes
  all : p.matchAllUrls = true → p.scheme = ['*'] ∧ p.host = [] ∧ p.matchSubdomains ∧
    p.port = ['*'] ∧ p.path = ['/', '*']

section Parsing
variable {gurl : Gurl} {p q : Pattern} {text : Text}

/-- The scheme is not touched any more, and the path was set. -/
structure SameSchemes (p q : Pattern) : Prop where
  validSchemes : q.validSchemes = p.validSchemes
  scheme : q.scheme = p.scheme
  matchAllUrls : q.matchAllUrls = p.matchAllUrls

lemma parseHost_same (h : parseHost p text = some q) : SameSchemes p q := by
  unfold parseHost at h
  split at h
  · cases h
  · split_ifs at h <;> cases h <;> exact ⟨rfl, rfl, rfl⟩

lemma parseAuthority_same (h : parseAuthority gurl p text = some (.ok q)) :
    SameSchemes p q ∧ q.pathEscaped = escape q.path := by
  unfold parseAuthority at h
  split_ifs at h with hstandard hfile
  · split at h <;> cases h <;> exact ⟨⟨rfl, rfl, rfl⟩, rfl⟩
  · split at h
    · cases h
    · split_ifs at h with hempty
      · cases h
      · obtain ⟨r, hr, hq⟩ := Option.map_eq_some_iff.mp h
        have hsame := parseHost_same hr
        cases hq
        exact ⟨⟨hsame.validSchemes, hsame.scheme, hsame.matchAllUrls⟩, rfl⟩
  · cases h
    exact ⟨⟨rfl, rfl, rfl⟩, rfl⟩

lemma parsePort_same (h : parsePort p = .ok q) :
    SameSchemes p q ∧ q.path = p.path ∧ q.pathEscaped = p.pathEscaped := by
  unfold parsePort setPort at h
  split at h
  · cases h
    exact ⟨⟨rfl, rfl, rfl⟩, rfl, rfl⟩
  · split at h
    · cases h
    · rename_i hport
      split_ifs at hport
      cases hport
      cases h
      exact ⟨⟨rfl, rfl, rfl⟩, rfl, rfl⟩

lemma checkHost_eq (h : checkHost p = .ok q) : q = p := by
  unfold checkHost at h
  split_ifs at h
  cases h
  rfl

lemma parsed_setScheme {scheme : Text} (hall : p.matchAllUrls = false)
    (h : p.setScheme scheme = some q) :
    q.matchAllUrls = false ∧ (q.scheme ≠ ['*'] → q.isValidScheme q.scheme) ∧
      (q.scheme = ['*'] → q.validSchemes &&& (schemeHttp ||| schemeHttps) = q.validSchemes) := by
  unfold setScheme at h
  split_ifs at h with hstar hvalid
  · cases h
    refine ⟨hall, fun hne => absurd hstar hne, fun _ => ?_⟩
    rw [BitVec.and_assoc, BitVec.and_self]
  · cases h
    exact ⟨hall, fun _ => hvalid, fun heq => absurd heq hstar⟩

lemma isValidScheme_congr (h : SameSchemes p q) (scheme : Text) :
    q.isValidScheme scheme = p.isValidScheme scheme := by
  rw [isValidScheme, isValidScheme, h.validSchemes]

lemma except_bind_eq_ok {ε α β : Type} {x : Except ε α} {f : α → Except ε β} {b : β}
    (h : x >>= f = .ok b) : ∃ a, x = .ok a ∧ f a = .ok b := by
  cases x with
  | error e => cases h
  | ok a => exact ⟨a, rfl, h⟩

lemma parsed_of_parse {validSchemes : SchemeMask}
    (h : parse gurl validSchemes text = some (.ok p)) : Parsed p := by
  unfold parse at h
  simp only at h
  split_ifs at h with hall
  · cases h
    exact ⟨rfl, nofun, nofun, fun _ => ⟨rfl, rfl, rfl, rfl, rfl⟩⟩
  split at h
  · cases h
  split at h
  · cases h
  rename_i start hstart
  split_ifs at h with hseparator hempty
  · cases h
  · cases h
  obtain ⟨result, hauthority, hresult⟩ := Option.map_eq_some_iff.mp h
  obtain ⟨middle, rfl, hrest⟩ := except_bind_eq_ok hresult
  obtain ⟨last, hport, hhost⟩ := except_bind_eq_ok hrest
  obtain rfl := checkHost_eq hhost
  obtain ⟨hfalse, hvalid, hstar⟩ := parsed_setScheme rfl hstart
  obtain ⟨hsame, hescaped⟩ := parseAuthority_same hauthority
  obtain ⟨hsame', hpath, hescaped'⟩ := parsePort_same hport
  have hall : p.matchAllUrls = false := by
    rw [hsame'.matchAllUrls, hsame.matchAllUrls, hfalse]
  refine ⟨by rw [hescaped', hescaped, hpath], fun _ => ?_, fun _ => ?_, fun htrue => ?_⟩
  · rw [isValidScheme_congr hsame', isValidScheme_congr hsame, hsame'.scheme, hsame.scheme]
    exact hvalid
  · rw [hsame'.validSchemes, hsame'.scheme, hsame.validSchemes, hsame.scheme]
    exact hstar
  · rw [hall] at htrue
    cases htrue

end Parsing

/-! ### When containment can be relied on -/

/-- What `contains` leaves unasked. A pattern for all URLs has its own schemes; subdomains are
contained in subdomains only, and a wildcard at the end of a path only in one that stands no
later. The last condition is about paths that are escaped, and of which the slash before the
wildcard is left out. -/
def Covers (gurl : Gurl) (p other : Pattern) : Prop :=
  if p.matchAllUrls then
    (∀ scheme ∈ other.getExplicitSchemes, p.isValidScheme scheme) ∧
      (other.matchAllUrls → other.validSchemes = schemeAll → p.validSchemes = schemeAll)
  else
    (p.scheme ≠ kFileScheme → other.matchSubdomains →
      p.matchSubdomains ∧ gurl.canonicalHost other.host = other.host) ∧
    ('*' ∈ other.path → '*' ∈ p.path ∧
      stripTrailingWildcard p.path <+: stripTrailingWildcard other.path ∧
      (stripTrailingWildcard p.path = stripTrailingWildcard other.path ∨
        escape (stripTrailingWildcard p.path) = stripTrailingWildcard p.path ∨
        (stripTrailingWildcard other.path).getLast? ≠ some '/'))

instance (gurl : Gurl) (p other : Pattern) : Decidable (Covers gurl p other) := by
  unfold Covers
  infer_instance

section Schemes
variable {p other : Pattern} {test : Text}

lemma isValidScheme_iff : p.isValidScheme test ↔ p.validSchemes = schemeAll ∨
    ∃ valid ∈ kValidSchemes, test = valid.1 ∧ p.validSchemes &&& valid.2 ≠ 0 := by
  simp [isValidScheme]

lemma matchesScheme_iff :
    p.matchesScheme test ↔ p.isValidScheme test ∧ (p.scheme = ['*'] ∨ test = p.scheme) := by
  simp [matchesScheme]

/-- The scheme `*` takes most schemes away. -/
lemma validSchemes_ne_all (h : p.validSchemes &&& (schemeHttp ||| schemeHttps) = p.validSchemes) :
    p.validSchemes ≠ schemeAll := by
  intro hall
  rw [hall] at h
  exact absurd h (by decide)

/-- The explicit schemes are all that the pattern matches, unless it matches all there are. -/
lemma mem_getExplicitSchemes (hother : Parsed other) (h : other.matchesScheme test)
    (hall : ¬ (other.matchAllUrls = true ∧ other.validSchemes = schemeAll)) :
    test ∈ other.getExplicitSchemes := by
  obtain ⟨hvalid, hscheme⟩ := matchesScheme_iff.mp h
  by_cases hexact : other.matchAllUrls = false ∧ other.scheme ≠ ['*']
  · have hown := hother.valid hexact.1 hexact.2
    rw [getExplicitSchemes, if_pos (by simp [hexact.1, hexact.2, hown]), List.mem_singleton]
    exact hscheme.resolve_left hexact.2
  · have hmany : ¬ (other.scheme ≠ ['*'] && !other.matchAllUrls &&
        other.isValidScheme other.scheme) = true := by
      intro hone
      simp only [Bool.and_eq_true, decide_eq_true_eq, Bool.not_eq_true'] at hone
      exact hexact ⟨hone.1.2, hone.1.1⟩
    rw [getExplicitSchemes, if_neg hmany, List.mem_filter]
    refine ⟨?_, h⟩
    rcases isValidScheme_iff.mp hvalid with heq | ⟨valid, hmem, rfl, -⟩
    · cases hmatch : other.matchAllUrls with
      | true => exact absurd ⟨hmatch, heq⟩ hall
      | false =>
        have hstar : other.scheme = ['*'] := by
          by_contra hne
          exact hexact ⟨hmatch, hne⟩
        exact absurd heq (validSchemes_ne_all (hother.star hmatch hstar))
    · exact List.mem_map_of_mem hmem

lemma getExplicitSchemes_of_all (hother : Parsed other) (hall : other.matchAllUrls = true)
    (hvalid : other.validSchemes = schemeAll) :
    other.getExplicitSchemes = kValidSchemes.map Prod.fst := by
  rw [getExplicitSchemes, if_neg (by simp [hall]), List.filter_eq_self]
  intro scheme _
  rw [matchesScheme_iff, isValidScheme_iff]
  exact ⟨.inl hvalid, .inl (hother.all hall).1⟩

/-- Files are matched by name only. -/
lemma scheme_eq_file (hp : Parsed p) (hall : p.matchAllUrls = false)
    (h : p.matchesScheme kFileScheme) : p.scheme = kFileScheme := by
  obtain ⟨hvalid, hstar | heq⟩ := matchesScheme_iff.mp h
  · have hmask := hp.star hall hstar
    rcases isValidScheme_iff.mp hvalid with heq | ⟨valid, hmem, heq, hbit⟩
    · exact absurd heq (validSchemes_ne_all hmask)
    · have hbits : ∀ valid ∈ kValidSchemes, kFileScheme = valid.1 →
          (schemeHttp ||| schemeHttps) &&& valid.2 = 0 := by decide
      rw [← hmask, BitVec.and_assoc, hbits valid hmem heq] at hbit
      exact absurd BitVec.and_zero hbit
  · exact heq.symm

/-- No pattern but the one for all URLs contains one that has all schemes. -/
lemma not_all_schemes (hp : Parsed p) (hother : Parsed other) (hall : p.matchAllUrls = false)
    (hschemes : ∀ scheme ∈ other.getExplicitSchemes, p.matchesScheme scheme) :
    ¬ (other.matchAllUrls = true ∧ other.validSchemes = schemeAll) := by
  rintro ⟨hmatch, hvalid⟩
  rw [getExplicitSchemes_of_all hother hmatch hvalid] at hschemes
  have hfile := scheme_eq_file hp hall (hschemes _ (by decide))
  obtain ⟨-, hhttp⟩ := matchesScheme_iff.mp (hschemes kHttpScheme (by decide))
  rw [hfile] at hhttp
  exact absurd hhttp (by decide)

/-- A scheme that the contained pattern matches is matched. -/
lemma matchesScheme_mono (hp : Parsed p) (hother : Parsed other) (hall : p.matchAllUrls = false)
    (hschemes : ∀ scheme ∈ other.getExplicitSchemes, p.matchesScheme scheme)
    (h : other.matchesScheme test) : p.matchesScheme test :=
  hschemes test (mem_getExplicitSchemes hother h (not_all_schemes hp hother hall hschemes))

end Schemes

section Hosts
variable {gurl : Gurl} {p other : Pattern} {test : Text}

/-- A text that ends in a dot and the host, with something before. -/
lemma endsWith_iff (host : Text) (hlength : host.length + 1 < test.length) :
    test.drop (test.length - host.length) = host ∧
        test[test.length - host.length - 1]? = some '.' ↔
      ∃ labels, labels ≠ [] ∧ test = labels ++ '.' :: host := by
  constructor
  · rintro ⟨hdrop, hdot⟩
    set n := test.length - host.length - 1 with hn
    have hsplit : test = test.take n ++ test.drop n := (List.take_append_drop n test).symm
    have hcons : test.drop n = '.' :: test.drop (n + 1) := by
      obtain ⟨hlt, hget⟩ := List.getElem?_eq_some_iff.mp hdot
      rw [List.drop_eq_getElem_cons hlt, hget]
    have hrest : test.length - host.length = n + 1 := by omega
    rw [hrest] at hdrop
    refine ⟨test.take n, ?_, ?_⟩
    · rw [← List.length_pos_iff, List.length_take_of_le (by omega)]
      omega
    · rw [← hdrop, ← hcons]
      exact hsplit
  · rintro ⟨labels, -, rfl⟩
    have hlast : (labels ++ '.' :: host).length - host.length = (labels ++ ['.']).length := by
      simp only [List.length_append, List.length_cons, List.length_nil]
      omega
    have hassoc : labels ++ '.' :: host = labels ++ ['.'] ++ host := by simp
    constructor
    · rw [hlast, hassoc, List.drop_left]
    · rw [hlast]
      simp

lemma matchesHost_iff : p.matchesHost gurl test ↔ test = p.host ∨
    (p.matchSubdomains ∧ (p.host = [] ∨
      (¬ gurl.isIPAddress test ∧ ∃ labels, labels ≠ [] ∧ test = labels ++ '.' :: p.host))) := by
  by_cases hequal : test = p.host
  · simp [matchesHost, hequal]
  by_cases hsub : p.matchSubdomains = true
  case neg => simp [matchesHost, hequal, hsub]
  by_cases hempty : p.host = []
  · simp [matchesHost, hsub, hempty]
  by_cases hip : gurl.isIPAddress test = true
  · simp [matchesHost, hequal, hsub, hempty, hip]
  by_cases hlength : test.length ≤ p.host.length + 1
  · have hnone : ¬ ∃ labels, labels ≠ [] ∧ test = labels ++ '.' :: p.host := by
      rintro ⟨labels, hne, rfl⟩
      rw [← List.length_pos_iff] at hne
      rw [List.length_append, List.length_cons] at hlength
      omega
    simp [matchesHost, hequal, hsub, hempty, hip, hlength, hnone]
  · rw [← endsWith_iff p.host (by omega)]
    by_cases hdrop : test.drop (test.length - p.host.length) = p.host <;>
    simp [matchesHost, hequal, hsub, hempty, hip, hlength, hdrop]

lemma matchesHost_mono (hhost : p.matchesHost gurl (gurl.canonicalHost other.host))
    (hsub : other.matchSubdomains → p.matchSubdomains ∧
      gurl.canonicalHost other.host = other.host)
    (hcanonical : gurl.canonicalHost test = test) (h : other.matchesHost gurl test) :
    p.matchesHost gurl test := by
  rcases matchesHost_iff.mp h with rfl | ⟨hother, hcases⟩
  · rwa [hcanonical] at hhost
  · obtain ⟨hp, hcanonical'⟩ := hsub hother
    rw [hcanonical'] at hhost
    rw [matchesHost_iff] at hhost ⊢
    rcases hhost with heq | ⟨-, hempty | ⟨hip, labels, hlabels, heq⟩⟩
    · rw [heq] at hcases
      exact .inr ⟨hp, hcases⟩
    · exact .inr ⟨hp, .inl hempty⟩
    · -- a subdomain of a subdomain
      rcases hcases with hempty | ⟨hip', labels', hlabels', rfl⟩
      · rw [hempty] at heq
        simp at heq
      · refine .inr ⟨hp, .inr ⟨hip', labels' ++ '.' :: labels, by simp, ?_⟩⟩
        rw [heq]
        simp

end Hosts

section Paths
variable {p other : Pattern} {test : Text}

/-- Escaping keeps the last character. -/
lemma getLast?_escape (path : Text) : (escape path).getLast? = path.getLast? := by
  rcases List.eq_nil_or_concat' path with rfl | ⟨init, last, rfl⟩
  · rfl
  · have hchar : (escapeChar last).getLast? = some last := by
      unfold escapeChar
      split_ifs with hbackslash hquestion
      · rw [hbackslash]; rfl
      · rw [hquestion]; rfl
      · rfl
    have hlast : escape [last] = escapeChar last := List.flatMap_singleton ..
    rw [escape_append, hlast, List.getLast?_append, hchar, List.getLast?_concat]
    rfl

/-- What is matched without its slash is matched by a shorter text too. -/
lemma escape_cases {text text' : Text} (hinitial : text <+: text')
    (hescape : text = text' ∨ escape text = text ∨ text'.getLast? ≠ some '/')
    (h : test ++ ['/'] = escape text') : test ++ ['/'] = escape text ∨ text <+: test := by
  rcases hescape with rfl | hsame | hlast
  · exact .inl h
  · obtain ⟨rest, rfl⟩ := hinitial
    rw [escape_append, hsame] at h
    cases rest with
    | nil =>
      rw [h, hsame]
      exact .inl (List.append_nil _)
    | cons c rest =>
      have hpos : 0 < (escape (c :: rest)).length := by
        rw [List.length_pos_iff, escape, List.flatMap_cons]
        unfold escapeChar
        split_ifs <;> simp
      have hlength := congrArg List.length h
      simp only [List.length_append, List.length_singleton] at hlength
      refine .inr (List.prefix_of_prefix_length_le ⟨_, h.symm⟩ (List.prefix_append _ _) ?_)
      omega
  · have hslash := getLast?_escape text'
    rw [← h, List.getLast?_concat] at hslash
    exact absurd hslash.symm hlast

/-- A path that the contained pattern matches is matched. -/
lemma matchesPath_mono (hp : p.pathEscaped = escape p.path)
    (hother : other.pathEscaped = escape other.path) (hwild : OneWildcard p.path)
    (hwild' : OneWildcard other.path)
    (hpath : p.matchesPath (stripTrailingWildcard other.path))
    (hcovers : '*' ∈ other.path → '*' ∈ p.path ∧
      stripTrailingWildcard p.path <+: stripTrailingWildcard other.path ∧
      (stripTrailingWildcard p.path = stripTrailingWildcard other.path ∨
        escape (stripTrailingWildcard p.path) = stripTrailingWildcard p.path ∨
        (stripTrailingWildcard other.path).getLast? ≠ some '/'))
    (h : other.matchesPath test) : p.matchesPath test := by
  obtain ⟨hstar', ⟨hnone, heq⟩ | ⟨hsome, heq⟩⟩ := path_cases hwild'
  · rw [matchesPath_exact hother hnone] at h
    rwa [h, heq]
  · obtain ⟨hmem, hinitial, hescape⟩ := hcovers hsome
    obtain ⟨hstar, ⟨hnone, -⟩ | ⟨-, heq'⟩⟩ := path_cases hwild
    · exact absurd hmem hnone
    rw [matchesPath_wildcard hother heq hstar'] at h
    rw [matchesPath_wildcard hp heq' hstar]
    rcases h with hslash | hstart
    · exact escape_cases hinitial hescape hslash
    · exact .inr (hinitial.trans hstart)

end Paths

section Containment
variable {gurl : Gurl} {p other : Pattern}

lemma matchesUrl_iff {test : Url gurl} : p.matchesUrl test ↔
    ¬ (test.innerUrl.isSome ∧ ¬ test.schemeIsFileSystem) ∧ p.matchesScheme test.origin.scheme ∧
      (p.matchAllUrls ∨ ((p.scheme = kFileScheme ∨ p.matchesHost gurl test.origin.host) ∧
        p.matchesPortPattern (toString test.origin.effectiveIntPort).toList ∧
        p.matchesPath test.requestPath)) := by
  have horigin : p.matchesSecurityOriginHelper gurl test.origin ↔
      (p.scheme = kFileScheme ∨ p.matchesHost gurl test.origin.host) ∧
        p.matchesPortPattern (toString test.origin.effectiveIntPort).toList := by
    unfold matchesSecurityOriginHelper
    by_cases hfile : p.scheme = kFileScheme <;>
    by_cases hhost : p.matchesHost gurl test.origin.host = true <;>
    simp [hfile, hhost]
  unfold matchesUrl
  split_ifs with hinner hscheme hall
  · simp_all
  · simp_all
  · simp_all
  · rw [Bool.and_eq_true, horigin]
    simp_all [and_assoc]

lemma contains_iff (hall : p.matchAllUrls = false) : p.contains gurl other ↔
    (∀ scheme ∈ other.getExplicitSchemes, p.matchesScheme scheme) ∧
      p.matchesHost gurl (gurl.canonicalHost other.host) ∧ p.matchesPortPattern other.port ∧
      p.matchesPath (stripTrailingWildcard other.path) := by
  simp [contains, hall, and_assoc]

lemma matchesPortPattern_mono {port : Text} (hport : p.matchesPortPattern other.port)
    (h : other.matchesPortPattern port) : p.matchesPortPattern port := by
  simp only [matchesPortPattern, Bool.or_eq_true, decide_eq_true_eq] at *
  rcases hport with hany | heq
  · exact .inl hany
  · rwa [heq]

/-- The path of a URL whose scheme has a mask of its own begins with a slash. -/
lemma head?_requestPath {test : Url gurl} {valid : Text × SchemeMask} (hmem : valid ∈ kValidSchemes)
    (h : test.origin.scheme = valid.1) : test.requestPath.head? = some '/' := by
  have hslash := test.origin.path_slash (by rw [h]; exact gurl.isStandard_valid valid hmem)
  unfold Url.requestPath Url.origin at *
  cases hinner : test.innerUrl with
  | none =>
    rw [hinner] at hslash
    exact hslash.2
  | some inner =>
    rw [hinner] at hslash
    have hinnerPath : inner.path.head? = some '/' := hslash.1
    rw [List.head?_append, hinnerPath]
    rfl

/-- A URL of all URLs has a host, a port and a path that the pattern has as well. -/
lemma matches_parts_of_all (hother : Parsed other) (hall : other.matchAllUrls = true)
    {test : Url gurl} (hslash : test.requestPath.head? = some '/') :
    other.matchesHost gurl test.origin.host ∧
      other.matchesPortPattern (toString test.origin.effectiveIntPort).toList ∧
      other.matchesPath test.requestPath := by
  obtain ⟨-, hhost, hsub, hport, hpath⟩ := hother.all hall
  refine ⟨matchesHost_iff.mpr (.inr ⟨hsub, .inl hhost⟩), ?_, ?_⟩
  · simp [matchesPortPattern, hport]
  · have hsplit : other.path = ['/'] ++ ['*'] := hpath
    rw [matchesPath_wildcard hother.escaped hsplit (by decide)]
    obtain ⟨rest, hrest⟩ := List.head?_eq_some_iff.mp hslash
    exact .inr ⟨rest, hrest.symm⟩

/-- Within these limits a pattern that contains another one matches all its URLs. -/
theorem contains_sound (validSchemes validSchemes' : SchemeMask) (text text' : Text)
    (hp : parse gurl validSchemes text = some (.ok p))
    (hother : parse gurl validSchemes' text' = some (.ok other))
    (hwild : OneWildcard p.path) (hwild' : OneWildcard other.path)
    (hcovers : Covers gurl p other) (hcontains : p.contains gurl other) (test : Url gurl)
    (h : other.matchesUrl test) : p.matchesUrl test := by
  have hp := parsed_of_parse hp
  have hother := parsed_of_parse hother
  obtain ⟨hinner, hscheme, hrest⟩ := matchesUrl_iff.mp h
  rw [matchesUrl_iff]
  unfold Covers at hcovers
  cases hall : p.matchAllUrls with
  | true =>
    rw [if_pos hall] at hcovers
    refine ⟨hinner, matchesScheme_iff.mpr ⟨?_, .inl (hp.all hall).1⟩, .inl rfl⟩
    by_cases hmany : other.matchAllUrls = true ∧ other.validSchemes = schemeAll
    · exact isValidScheme_iff.mpr (.inl (hcovers.2 hmany.1 hmany.2))
    · exact hcovers.1 _ (mem_getExplicitSchemes hother hscheme hmany)
  | false =>
    rw [if_neg (by simp [hall])] at hcovers
    obtain ⟨hsub, hpath⟩ := hcovers
    obtain ⟨hschemes, hhost, hport, htext⟩ := (contains_iff hall).mp hcontains
    have hscheme' := matchesScheme_mono hp hother hall hschemes hscheme
    have hmany := not_all_schemes hp hother hall hschemes
    obtain ⟨hhost', hport', hpath'⟩ : (p.scheme = kFileScheme ∨
          other.matchesHost gurl test.origin.host) ∧
        other.matchesPortPattern (toString test.origin.effectiveIntPort).toList ∧
        other.matchesPath test.requestPath := by
      rcases hrest with hall' | ⟨hfile | hhost', hport', hpath'⟩
      · obtain ⟨valid, hmem, heq, -⟩ := (isValidScheme_iff.mp (matchesScheme_iff.mp hscheme).1)
          |>.resolve_left fun hvalid => hmany ⟨hall', hvalid⟩
        have hparts := matches_parts_of_all hother hall' (head?_requestPath hmem heq)
        exact ⟨.inr hparts.1, hparts.2⟩
      · -- a file has no host to be asked for
        have htest : test.origin.scheme = kFileScheme := by
          have := (matchesScheme_iff.mp hscheme).2
          rw [hfile] at this
          exact this.resolve_left (by decide)
        rw [htest] at hscheme'
        exact ⟨.inl (scheme_eq_file hp hall hscheme'), hport', hpath'⟩
      · exact ⟨.inr hhost', hport', hpath'⟩
    refine ⟨hinner, hscheme', .inr ⟨?_, matchesPortPattern_mono hport hport',
      matchesPath_mono hp.escaped hother.escaped hwild hwild' htext hpath hpath'⟩⟩
    by_cases hfile : p.scheme = kFileScheme
    · exact .inl hfile
    · exact .inr (matchesHost_mono hhost (hsub hfile) test.origin.host_canonical
        (hhost'.resolve_left hfile))

end Containment

/-- Hosts are taken as they are. -/
def plainGurl : Gurl where
  canonicalHost := id
  isIPAddress _ := false
  isStandard scheme := (kValidSchemes.map Prod.fst).contains scheme
  isStandard_valid := by decide

def googleUrl (host path : Text) (h : path.head? = some '/') : Url plainGurl where
  outer :=
    { scheme := kHttpScheme, host := host, effectiveIntPort := 80, path := path,
      pathForRequest := path, host_canonical := rfl, path_slash := fun _ => ⟨h, h⟩ }
  innerUrl := none

def exactPattern : Pattern :=
  { validSchemes := schemeHttp, scheme := kHttpScheme, host := "google.com".toList,
    path := "/*".toList, pathEscaped := "/*".toList }

def subdomainPattern : Pattern := { exactPattern with matchSubdomains := true }

def mailPattern : Pattern :=
  { exactPattern with host := "mail.google.com".toList, path := "/foo*".toList,
                      pathEscaped := "/foo*".toList }

theorem contains_sound_mail :
    parse plainGurl schemeHttp "http://mail.google.com/foo*".toList = some (.ok mailPattern) ∧
      subdomainPattern.matchesUrl (googleUrl "mail.google.com".toList "/foobar".toList rfl) :=
  ⟨by decide, contains_sound schemeHttp schemeHttp "http://*.google.com/*".toList
    "http://mail.google.com/foo*".toList (by decide) (by decide) (by decide) (by decide)
    (by decide) (by decide) _ (show mailPattern.matchesUrl _ = true by decide +kernel)⟩

/-- A host contains its subdomains, but it does not match them. -/
theorem subdomains_not_contained :
    parse plainGurl schemeHttp "http://google.com/*".toList = some (.ok exactPattern) ∧
      parse plainGurl schemeHttp "http://*.google.com/*".toList = some (.ok subdomainPattern) ∧
      exactPattern.contains plainGurl subdomainPattern ∧
      subdomainPattern.matchesUrl (googleUrl "mail.google.com".toList ['/'] rfl) ∧
      ¬ exactPattern.matchesUrl (googleUrl "mail.google.com".toList ['/'] rfl) := by
  decide

end Chromium.UrlPattern

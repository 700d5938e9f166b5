import Chromium.UrlPatternContainment

/-!
# Overlapping URL patterns

`OverlapsWith` asks each pattern about one URL of the other. A common URL is missed where that
URL is not one that the other pattern has.
-/
namespace Chromium.UrlPattern

namespace Pattern

def matchesAnyScheme (p : Pattern) (schemes : List Text) : Bool := schemes.any p.matchesScheme

def overlapsWith (gurl : Gurl) (p other : Pattern) : Bool :=
  if p.matchAllUrls || other.matchAllUrls then true
  else
    (p.matchesAnyScheme other.getExplicitSchemes || other.matchesAnyScheme p.getExplicitSchemes) &&
      (p.matchesHost gurl (gurl.canonicalHost other.host) ||
        other.matchesHost gurl (gurl.canonicalHost p.host)) &&
      (p.matchesPortPattern other.port || other.matchesPortPattern p.port) &&
      (p.matchesPath (stripTrailingWildcard other.path) ||
        other.matchesPath (stripTrailingWildcard p.path))

end Pattern

open Pattern

/-! ### What has to be common -/

/-- The host is the one of the pattern, or a subdomain of it and no address. -/
def Under (gurl : Gurl) (p : Pattern) (host : Text) : Prop :=
  host = p.host ∨
    (¬ gurl.isIPAddress host ∧ ∃ labels, labels ≠ [] ∧ host = labels ++ '.' :: p.host)

/-- A pattern has no host, or exactly that of the URL; or the host of one pattern, as GURL reads
it, is under that of the other. -/
def HostsMeet (gurl : Gurl) (p other : Pattern) (host : Text) : Prop :=
  p.host = [] ∨ other.host = [] ∨ host = p.host ∨ host = other.host ∨
    Under gurl p (gurl.canonicalHost other.host) ∨ Under gurl other (gurl.canonicalHost p.host)

/-- One of two paths with wildcards begins with the other, or lacks only the slash of the other
when that is escaped. -/
def PathsMeet (p other : Pattern) : Prop :=
  '*' ∉ p.path ∨ '*' ∉ other.path ∨
    stripTrailingWildcard p.path <+: stripTrailingWildcard other.path ∨
    stripTrailingWildcard other.path <+: stripTrailingWildcard p.path ∨
    stripTrailingWildcard other.path ++ ['/'] = escape (stripTrailingWildcard p.path) ∨
    stripTrailingWildcard p.path ++ ['/'] = escape (stripTrailingWildcard other.path)

/-- A URL that both patterns match is found in their overlap. -/
def Meets (gurl : Gurl) (p other : Pattern) (test : Url gurl) : Prop :=
  p.matchAllUrls ∨ other.matchAllUrls ∨
    (HostsMeet gurl p other test.origin.host ∧ PathsMeet p other)

section Overlap
variable {gurl : Gurl} {p other : Pattern} {text : Text}

/-! ### Files have no host -/

/-- No host is read for a file, and none is left behind. -/
lemma parseAuthority_file (hp : p.host = []) (hfile : p.scheme = kFileScheme)
    (h : parseAuthority gurl p text = some (.ok other)) : other.host = [] := by
  unfold parseAuthority at h
  split_ifs at h
  · split at h <;> cases h <;> exact hp
  · cases h
    exact hp

lemma parsePort_host (hp : p.host = []) (h : parsePort p = .ok other) : other.host = [] := by
  have hnone : splitAt [':'] p.host = none := by rw [hp]; rfl
  rw [parsePort, hnone] at h
  cases h
  exact hp

lemma host_of_file {validSchemes : SchemeMask}
    (h : parse gurl validSchemes text = some (.ok p)) (hfile : p.scheme = kFileScheme) :
    p.host = [] := by
  unfold parse at h
  simp only at h
  split_ifs at h
  · cases h
    rfl
  split at h
  · cases h
  split at h
  · cases h
  rename_i start hstart
  split_ifs at h
  · cases h
  · cases h
  obtain ⟨result, hauthority, hresult⟩ := Option.map_eq_some_iff.mp h
  obtain ⟨middle, rfl, hrest⟩ := except_bind_eq_ok hresult
  obtain ⟨last, hport, hhost⟩ := except_bind_eq_ok hrest
  obtain rfl := checkHost_eq hhost
  have hnone : start.host = [] := by
    unfold setScheme at hstart
    split_ifs at hstart <;> cases hstart <;> rfl
  have hscheme : start.scheme = kFileScheme := by
    rw [← (parseAuthority_same hauthority).1.scheme, ← (parsePort_same hport).1.scheme]
    exact hfile
  exact parsePort_host (parseAuthority_file hnone hscheme hauthority) hport

/-- A pattern for files matches files only. -/
lemma ne_file_of_matchesScheme {scheme : Text} (hne : scheme ≠ kFileScheme)
    (h : p.matchesScheme scheme) : p.scheme ≠ kFileScheme := by
  intro heq
  rcases (matchesScheme_iff.mp h).2 with hstar | hsame
  · rw [heq] at hstar
    exact absurd hstar (by decide)
  · exact hne (hsame.trans heq)

/-! ### The four parts -/

lemma overlapsWith_comm (gurl : Gurl) (p other : Pattern) :
    p.overlapsWith gurl other = other.overlapsWith gurl p := by
  rw [overlapsWith, overlapsWith, Bool.or_comm p.matchAllUrls,
    Bool.or_comm (p.matchesAnyScheme _), Bool.or_comm (p.matchesHost ..),
    Bool.or_comm (p.matchesPortPattern _), Bool.or_comm (p.matchesPath _)]

lemma overlapsWith_iff_parts (hall : p.matchAllUrls = false) (hall' : other.matchAllUrls = false) :
    p.overlapsWith gurl other ↔
      (p.matchesAnyScheme other.getExplicitSchemes ∨
          other.matchesAnyScheme p.getExplicitSchemes) ∧
        (p.matchesHost gurl (gurl.canonicalHost other.host) ∨
          other.matchesHost gurl (gurl.canonicalHost p.host)) ∧
        (p.matchesPortPattern other.port ∨ other.matchesPortPattern p.port) ∧
        (p.matchesPath (stripTrailingWildcard other.path) ∨
          other.matchesPath (stripTrailingWildcard p.path)) := by
  simp [overlapsWith, hall, hall', and_assoc]

lemma matchesAnyScheme_of_common {scheme : Text} (hother : Parsed other)
    (hall : other.matchAllUrls = false) (h : p.matchesScheme scheme)
    (h' : other.matchesScheme scheme) : p.matchesAnyScheme other.getExplicitSchemes := by
  rw [matchesAnyScheme, List.any_eq_true]
  exact ⟨scheme, mem_getExplicitSchemes hother h' (by simp [hall]), h⟩

lemma matchesPortPattern_of_common {port : Text} (h : p.matchesPortPattern port)
    (h' : other.matchesPortPattern port) :
    p.matchesPortPattern other.port ∨ other.matchesPortPattern p.port := by
  simp only [matchesPortPattern, Bool.or_eq_true, decide_eq_true_eq] at *
  rcases h with hany | heq
  · exact .inl (.inl hany)
  · rcases h' with hany | heq'
    · exact .inr (.inl hany)
    · exact .inl (.inr (heq.trans heq'.symm))

/-- A host under that of a pattern is matched when the pattern has subdomains at all. -/
lemma matchesHost_of_under {host test : Text} (h : Under gurl p host)
    (htest : p.matchesHost gurl test) (hne : test ≠ p.host) : p.matchesHost gurl host := by
  obtain ⟨hsub, -⟩ := (matchesHost_iff.mp htest).resolve_left hne
  rw [matchesHost_iff]
  rcases h with heq | hunder
  · exact .inl heq
  · exact .inr ⟨hsub, .inr hunder⟩

lemma under_of_matchesHost {host : Text} (h : p.matchesHost gurl host) :
    p.host = [] ∨ Under gurl p host := by
  rcases matchesHost_iff.mp h with heq | ⟨-, hempty | hunder⟩
  · exact .inr (.inl heq)
  · exact .inl hempty
  · exact .inr (.inr hunder)

/-- The hosts of two patterns that match the host of a URL. -/
lemma matchesHost_of_common {test : Text} (hcanonical : gurl.canonicalHost test = test)
    (h : p.matchesHost gurl test) (h' : other.matchesHost gurl test) :
    (p.matchesHost gurl (gurl.canonicalHost other.host) ∨
      other.matchesHost gurl (gurl.canonicalHost p.host)) ↔ HostsMeet gurl p other test := by
  constructor
  · rintro (hhost | hhost)
    · rcases under_of_matchesHost hhost with hempty | hunder
      · exact .inl hempty
      · exact .inr (.inr (.inr (.inr (.inl hunder))))
    · rcases under_of_matchesHost hhost with hempty | hunder
      · exact .inr (.inl hempty)
      · exact .inr (.inr (.inr (.inr (.inr hunder))))
  · intro hmeet
    by_cases heq : test = p.host
    · exact .inr (by rwa [← heq, hcanonical])
    by_cases heq' : test = other.host
    · exact .inl (by rwa [← heq', hcanonical])
    rcases hmeet with hempty | hempty | hsame | hsame | hunder | hunder
    · obtain ⟨hsub, -⟩ := (matchesHost_iff.mp h).resolve_left heq
      exact .inl (matchesHost_iff.mpr (.inr ⟨hsub, .inl hempty⟩))
    · obtain ⟨hsub, -⟩ := (matchesHost_iff.mp h').resolve_left heq'
      exact .inr (matchesHost_iff.mpr (.inr ⟨hsub, .inl hempty⟩))
    · exact absurd hsame heq
    · exact absurd hsame heq'
    · exact .inl (matchesHost_of_under hunder h heq)
    · exact .inr (matchesHost_of_under hunder h' heq')

/-- The paths of two patterns that match the path of a URL. -/
lemma matchesPath_of_common {test : Text} (hp : p.pathEscaped = escape p.path)
    (hother : other.pathEscaped = escape other.path) (hwild : OneWildcard p.path)
    (hwild' : OneWildcard other.path) (h : p.matchesPath test) (h' : other.matchesPath test) :
    (p.matchesPath (stripTrailingWildcard other.path) ∨
      other.matchesPath (stripTrailingWildcard p.path)) ↔ PathsMeet p other := by
  unfold PathsMeet
  obtain ⟨hstar, ⟨hnone, heq⟩ | ⟨hsome, heq⟩⟩ := path_cases hwild
  · rw [matchesPath_exact hp hnone] at h
    subst h
    rw [← heq]
    exact ⟨fun _ => .inl hnone, fun _ => .inr h'⟩
  obtain ⟨hstar', ⟨hnone', heq'⟩ | ⟨hsome', heq'⟩⟩ := path_cases hwild'
  · rw [matchesPath_exact hother hnone'] at h'
    subst h'
    rw [← heq']
    exact ⟨fun _ => .inr (.inl hnone'), fun _ => .inl h⟩
  · rw [matchesPath_wildcard hp heq hstar, matchesPath_wildcard hother heq' hstar']
    tauto

end Overlap

/-! ### Patterns that always meet -/

/-- The host is read as it is and is a name, and nothing in the path is escaped. -/
structure Regular (gurl : Gurl) (p : Pattern) : Prop where
  canonical : gurl.canonicalHost p.host = p.host
  name : ¬ gurl.isIPAddress p.host
  noDot : p.host.head? ≠ some '.'
  path : escape p.path = p.path

/-- Of two hosts at the end of a third one the longer is under the shorter. -/
lemma under_of_suffix {gurl : Gurl} {p other : Pattern} {labels labels' : Text}
    (hother : Regular gurl other) (hlength : p.host.length ≤ other.host.length)
    (h : labels ++ '.' :: p.host = labels' ++ '.' :: other.host) :
    Under gurl p (gurl.canonicalHost other.host) := by
  rw [hother.canonical]
  by_cases hsame : p.host.length = other.host.length
  · have hcons := List.append_inj_right' h (by rw [List.length_cons, List.length_cons, hsame])
    exact .inl (List.cons.inj hcons).2.symm
  · have hsuffix : '.' :: p.host <:+ other.host := by
      have hlong : other.host <:+ labels ++ '.' :: p.host :=
        h ▸ (List.suffix_cons _ _).trans (List.suffix_append _ _)
      apply List.suffix_of_suffix_length_le (List.suffix_append _ _) hlong
      rw [List.length_cons]
      omega
    obtain ⟨between, hbetween⟩ := hsuffix
    refine .inr ⟨hother.name, between, ?_, hbetween.symm⟩
    rintro rfl
    exact hother.noDot (by rw [← hbetween]; rfl)

lemma hostsMeet_of_regular {gurl : Gurl} {p other : Pattern} {test : Text}
    (hp : Regular gurl p) (hother : Regular gurl other) (h : p.matchesHost gurl test)
    (h' : other.matchesHost gurl test) : HostsMeet gurl p other test := by
  rcases matchesHost_iff.mp h with heq | ⟨-, hempty | ⟨-, labels, -, hlabels⟩⟩
  · exact .inr (.inr (.inl heq))
  · exact .inl hempty
  rcases matchesHost_iff.mp h' with heq | ⟨-, hempty | ⟨-, labels', -, hlabels'⟩⟩
  · exact .inr (.inr (.inr (.inl heq)))
  · exact .inr (.inl hempty)
  have hends := hlabels.symm.trans hlabels'
  rcases le_total p.host.length other.host.length with hle | hle
  · exact .inr (.inr (.inr (.inr (.inl (under_of_suffix hother hle hends)))))
  · exact .inr (.inr (.inr (.inr (.inr (under_of_suffix hp hle hends.symm)))))

lemma escape_eq_of_append {xs ys : Text} (h : escape (xs ++ ys) = xs ++ ys) :
    escape xs = xs := by
  rw [escape_append] at h
  have hlength : ∀ zs : Text, zs.length ≤ (escape zs).length := by
    intro zs
    induction zs with
    | nil => exact le_rfl
    | cons c zs ih =>
      have hchar : 1 ≤ (escapeChar c).length := by
        unfold escapeChar
        split_ifs <;> simp
      rw [escape, List.flatMap_cons, List.length_append, List.length_cons]
      rw [escape] at ih
      omega
  have hsum := congrArg List.length h
  simp only [List.length_append] at hsum
  have hxs := hlength xs
  have hys := hlength ys
  exact List.append_inj_left h (by omega)

/-- A text that a path begins with, or lacks only its slash, begins with what is shorter. -/
lemma pathsMeet_of_regular {gurl : Gurl} {p other : Pattern} {test : Text}
    (hp : Regular gurl p) (hother : Regular gurl other)
    (hescaped : p.pathEscaped = escape p.path) (hescaped' : other.pathEscaped = escape other.path)
    (hwild : OneWildcard p.path) (hwild' : OneWildcard other.path) (h : p.matchesPath test)
    (h' : other.matchesPath test) : PathsMeet p other := by
  obtain ⟨hstar, ⟨hnone, -⟩ | ⟨-, heq⟩⟩ := path_cases hwild
  · exact .inl hnone
  obtain ⟨hstar', ⟨hnone, -⟩ | ⟨-, heq'⟩⟩ := path_cases hwild'
  · exact .inr (.inl hnone)
  rw [matchesPath_wildcard hescaped heq hstar,
    @escape_eq_of_append _ ['*'] (by rw [← heq, hp.path])] at h
  rw [matchesPath_wildcard hescaped' heq' hstar',
    @escape_eq_of_append _ ['*'] (by rw [← heq', hother.path])] at h'
  have htest : test <+: test ++ ['/'] := List.prefix_append _ _
  rcases h with hslash | hstart
  · rcases h' with hslash' | hstart'
    · exact .inr (.inr (.inl (by rw [← hslash, hslash'])))
    · exact .inr (.inr (.inr (.inl (by rw [← hslash]; exact hstart'.trans htest))))
  · rcases h' with hslash' | hstart'
    · exact .inr (.inr (.inl (by rw [← hslash']; exact hstart.trans htest)))
    · rcases List.prefix_or_prefix_of_prefix hstart hstart' with hle | hle
      · exact .inr (.inr (.inl hle))
      · exact .inr (.inr (.inr (.inl hle)))

section Overlap
variable {gurl : Gurl} {p other : Pattern}

/-- The overlap of two patterns misses no URL but where their hosts or their paths do not
meet. -/
theorem overlapsWith_iff (validSchemes validSchemes' : SchemeMask) (text text' : Text)
    (hp : parse gurl validSchemes text = some (.ok p))
    (hother : parse gurl validSchemes' text' = some (.ok other))
    (hwild : OneWildcard p.path) (hwild' : OneWildcard other.path)
    (hempty : gurl.canonicalHost [] = []) :
    (p.overlapsWith gurl other = other.overlapsWith gurl p) ∧
      ∀ test : Url gurl, p.matchesUrl test → other.matchesUrl test →
        (p.overlapsWith gurl other ↔ Meets gurl p other test) := by
  refine ⟨overlapsWith_comm gurl p other, fun test htest htest' => ?_⟩
  have hparsed := parsed_of_parse hp
  have hparsed' := parsed_of_parse hother
  cases hall : p.matchAllUrls with
  | true => simp [overlapsWith, Meets, hall]
  | false =>
  cases hall' : other.matchAllUrls with
  | true => simp [overlapsWith, Meets, hall']
  | false =>
  obtain ⟨-, hscheme, hrest⟩ := matchesUrl_iff.mp htest
  obtain ⟨-, hscheme', hrest'⟩ := matchesUrl_iff.mp htest'
  rw [hall] at hrest
  rw [hall'] at hrest'
  obtain ⟨hhost, hport, hpath⟩ := hrest.resolve_left Bool.false_ne_true
  obtain ⟨hhost', hport', hpath'⟩ := hrest'.resolve_left Bool.false_ne_true
  have hhosts : (p.matchesHost gurl (gurl.canonicalHost other.host) ∨
      other.matchesHost gurl (gurl.canonicalHost p.host)) ↔
        HostsMeet gurl p other test.origin.host := by
    by_cases hfile : test.origin.scheme = kFileScheme
    · -- both patterns are for files, which have no host
      rw [hfile] at hscheme hscheme'
      have hnone := host_of_file hp (scheme_eq_file hparsed hall hscheme)
      have hnone' := host_of_file hother (scheme_eq_file hparsed' hall' hscheme')
      refine ⟨fun _ => .inl hnone, fun _ => .inl ?_⟩
      rw [hnone', hempty, matchesHost_iff]
      exact .inl hnone.symm
    · exact matchesHost_of_common test.origin.host_canonical
        (hhost.resolve_left (ne_file_of_matchesScheme hfile hscheme))
        (hhost'.resolve_left (ne_file_of_matchesScheme hfile hscheme'))
  rw [overlapsWith_iff_parts hall hall', hhosts,
    matchesPath_of_common hparsed.escaped hparsed'.escaped hwild hwild' hpath hpath']
  have hschemes := matchesAnyScheme_of_common hparsed' hall' hscheme hscheme'
  have hports := matchesPortPattern_of_common hport hport'
  simp [Meets, hall, hall', hschemes, hports]

end Overlap

theorem overlapsWith_iff_mail :
    plainGurl.canonicalHost [] = [] ∧
      (subdomainPattern.overlapsWith plainGurl mailPattern ↔ Meets plainGurl subdomainPattern
        mailPattern (googleUrl "mail.google.com".toList "/foobar".toList rfl)) :=
  ⟨rfl, (overlapsWith_iff schemeHttp schemeHttp "http://*.google.com/*".toList
    "http://mail.google.com/foo*".toList (by decide) (by decide) (by decide) (by decide)
    rfl).2 _ (by decide +kernel) (by decide +kernel)⟩

def dotPattern : Pattern := { subdomainPattern with host := ".google.com".toList }

def number : Text := "1.2".toList

/-- A host of numbers is an address. -/
def numberGurl : Gurl where
  canonicalHost host := if host = number then "1.0.0.2".toList else host
  isIPAddress host := host = "1.0.0.2".toList
  isStandard scheme := (kValidSchemes.map Prod.fst).contains scheme
  isStandard_valid := plainGurl.isStandard_valid

def numberUrl : Url numberGurl where
  outer :=
    { scheme := kHttpScheme, host := "a.1.2".toList, effectiveIntPort := 80, path := ['/'],
      pathForRequest := ['/'], host_canonical := rfl, path_slash := fun _ => ⟨rfl, rfl⟩ }
  innerUrl := none

def numberPattern : Pattern := { subdomainPattern with host := number }

/-- An empty label comes before the host, and a pattern misses its own URLs when its host reads
as an address. -/
theorem overlap_missed :
    (parse plainGurl schemeHttp "http://*.google.com/*".toList = some (.ok subdomainPattern) ∧
      parse plainGurl schemeHttp "http://*..google.com/*".toList = some (.ok dotPattern) ∧
      subdomainPattern.matchesUrl (googleUrl "mail..google.com".toList ['/'] rfl) ∧
      dotPattern.matchesUrl (googleUrl "mail..google.com".toList ['/'] rfl) ∧
      ¬ subdomainPattern.overlapsWith plainGurl dotPattern) ∧
    parse numberGurl schemeHttp "http://*.1.2/*".toList = some (.ok numberPattern) ∧
      numberPattern.matchesUrl numberUrl ∧
      ¬ numberPattern.overlapsWith numberGurl numberPattern := by
  decide +kernel

/-! ### Sets of patterns -/

/-- `URLPatternSet`. -/
abbrev PatternSet := List Pattern

namespace PatternSet
variable {gurl : Gurl}

def matchesUrl (patterns : PatternSet) (test : Url gurl) : Bool :=
  patterns.any fun p => p.matchesUrl test

def overlapsWith (gurl : Gurl) (patterns others : PatternSet) : Bool :=
  patterns.any fun p => others.any fun other => p.overlapsWith gurl other

/-- The patterns of a set were parsed, are regular and have one wildcard in their paths at most. -/
def Plain (gurl : Gurl) (patterns : PatternSet) : Prop :=
  ∀ p ∈ patterns, (∃ validSchemes text, parse gurl validSchemes text = some (.ok p)) ∧
    Regular gurl p ∧ OneWildcard p.path

/-- No URL in two extents is missed when their patterns are regular. -/
theorem overlapsWith_of_common {patterns others : PatternSet} (hp : Plain gurl patterns)
    (hothers : Plain gurl others) {test : Url gurl} (h : patterns.matchesUrl test)
    (h' : others.matchesUrl test) : patterns.overlapsWith gurl others := by
  obtain ⟨p, hmem, htest⟩ := List.any_eq_true.mp h
  obtain ⟨other, hmem', htest'⟩ := List.any_eq_true.mp h'
  obtain ⟨⟨_, _, hparse⟩, hregular, hwild⟩ := hp p hmem
  obtain ⟨⟨_, _, hparse'⟩, hregular', hwild'⟩ := hothers other hmem'
  refine List.any_eq_true.mpr ⟨p, hmem, List.any_eq_true.mpr ⟨other, hmem', ?_⟩⟩
  have hparsed := parsed_of_parse hparse
  have hparsed' := parsed_of_parse hparse'
  by_cases hany : (p.matchAllUrls || other.matchAllUrls) = true
  · rw [Pattern.overlapsWith, if_pos hany]
  obtain ⟨hall, hall'⟩ := Bool.or_eq_false_iff.mp (Bool.not_eq_true _ ▸ hany)
  obtain ⟨-, hscheme, hrest⟩ := matchesUrl_iff.mp htest
  obtain ⟨-, hscheme', hrest'⟩ := matchesUrl_iff.mp htest'
  obtain ⟨hhost, hport, hpath⟩ := hrest.resolve_left (by simp [hall])
  obtain ⟨hhost', hport', hpath'⟩ := hrest'.resolve_left (by simp [hall'])
  refine (overlapsWith_iff_parts hall hall').mpr
    ⟨.inl (matchesAnyScheme_of_common hparsed' hall' hscheme hscheme'), ?_,
      matchesPortPattern_of_common hport hport',
      (matchesPath_of_common hparsed.escaped hparsed'.escaped hwild hwild' hpath hpath').mpr
        (pathsMeet_of_regular hregular hregular' hparsed.escaped hparsed'.escaped hwild hwild'
          hpath hpath')⟩
  by_cases hfile : test.origin.scheme = kFileScheme
  · -- both patterns are for files, which have no host
    rw [hfile] at hscheme hscheme'
    have hnone := host_of_file hparse (scheme_eq_file hparsed hall hscheme)
    have hnone' := host_of_file hparse' (scheme_eq_file hparsed' hall' hscheme')
    exact .inl (matchesHost_iff.mpr (.inl (by rw [hregular'.canonical, hnone, hnone'])))
  · have hhost := hhost.resolve_left (ne_file_of_matchesScheme hfile hscheme)
    have hhost' := hhost'.resolve_left (ne_file_of_matchesScheme hfile hscheme')
    exact (matchesHost_of_common test.origin.host_canonical hhost hhost').mpr
      (hostsMeet_of_regular hregular hregular' hhost hhost')

theorem overlapsWith_of_common_mail :
    overlapsWith plainGurl [subdomainPattern, mailPattern] [subdomainPattern, mailPattern] := by
  have hplain : Plain plainGurl [subdomainPattern, mailPattern] := by
    refine List.forall_mem_cons.mpr ⟨?_, List.forall_mem_singleton.mpr ?_⟩
    · exact ⟨⟨schemeHttp, "http://*.google.com/*".toList, by decide⟩,
        ⟨rfl, by decide, by decide, by decide⟩, by decide⟩
    · exact ⟨⟨schemeHttp, "http://mail.google.com/foo*".toList, by decide⟩,
        ⟨rfl, by decide, by decide, by decide⟩, by decide⟩
  exact @overlapsWith_of_common _ _ _ hplain hplain (googleUrl "mail.google.com".toList
    "/foobar".toList rfl) (by decide +kernel) (by decide +kernel)

end PatternSet

end Chromium.UrlPattern

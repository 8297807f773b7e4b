/-!
# Subtags of languages

The registered subtags that a language tag may be made of: languages, scripts,
regions and variants.
-/

namespace Mos6510.Language

/-- Languages with a code of two letters. -/
def shortCodes : List String :=
  ("aa ab ae af ak am an ar as av ay az ba be bg bh bi bm bn bo br bs ca ce ch co cr cs cu cv " ++
    "cy da de dv dz ee el en eo es et eu fa ff fi fj fo fr fy ga gd gl gn gu gv ha he hi ho hr " ++
    "ht hu hy hz ia id ie ig ii ik in io is it iu iw ja ji jv jw ka kg ki kj kk kl km kn ko kr " ++
    "ks ku kv kw ky la lb lg li ln lo lt lu lv mg mh mi mk ml mn mo mr ms mt my na nb nd ne ng " ++
    "nl nn no nr nv ny oc oj om or os pa pi pl ps pt qu rm rn ro ru rw sa sc sd se sg sh si sk " ++
    "sl sm sn so sq sr ss st su sv sw ta te tg th ti tk tl tn to tr ts tt tw ty ug uk ur uz ve " ++
    "vi vo wa wo xh yi yo za zh zu").splitOn " "

/-- The third letters of the languages with a code of three letters, by the
first two. -/
def longCodes : List (String × String) := [
  ("aa", "abcdefghiklmnopqrstuvwxz"), ("ab", "abcdefghiklmnopqrstuvwxyz"),
  ("ac", "abdefhmnpqrstuvwxyz"), ("ad", "abdefghijlnopqrtuwxyz"), ("ae", "abceklmqrsuwyz"),
  ("af", "abdehiknoprsuz"), ("ag", "abcdefghijklmnopqrstuvwxyz"), ("ah", "abghiklmnoprst"),
  ("ai", "abcdefgijklmnopqrstwxy"), ("aj", "aginptuwz"), ("ak", "abcdefghiklopqrstuvwz"),
  ("al", "abcdefghijklmnopqrstuvwxyz"), ("am", "abcefghijkmnopqrstuvwxyz"),
  ("an", "abcdefghijklmnopqrstuvwxyz"), ("ao", "abcdefgijklmnrstxz"),
  ("ap", "abcdefghijklmnoprstuvwxyz"), ("aq", "acdgklmnrtz"), ("ar", "abcdeghijklmnopqrstuvwxyz"),
  ("as", "abcdeghijklmnorstuvxyz"), ("at", "abcdeghijklmnopqrstuvwxyz"),
  ("au", "acdefghijklmnopqrstuwyz"), ("av", "abdeiklmnostuv"), ("aw", "abcdeghikmnorstuvwxy"),
  ("ax", "begklmx"), ("ay", "abcdeghiklmnopqrstuxz"), ("az", "bcdegjmnotz"),
  ("ba", "abcdefghijklmnopqrstuvwxyz"), ("bb", "abcdefgijklmnopqrstuvwxy"),
  ("bc", "abcdefghijklmnopqrstuvwyz"), ("bd", "abcdefghijklmnopqrstuvwxyz"),
  ("be", "abcdefhijklmnopqrstuvwxyz"), ("bf", "abcdefghjlmnopqstuwxyz"),
  ("bg", "abcdfgijmnopqrstuvwxyz"), ("bh", "abcdefghijklmnopqrstuvwyz"),
  ("bi", "abcdefghklmnopqrstuvwxyz"), ("bj", "abcdfghijklmnopqrstuvwxyz"),
  ("bk", "abcdfghijklmnopqrstuvwxyz"), ("bl", "abcdefghijkmnopqrstvwxyz"),
  ("bm", "abcdefghijklmnopqrsuvwxz"), ("bn", "abcdefgijkmnopqrstuvwxyz"),
  ("bo", "abdefhjklmnopqrstuvwxyz"), ("bp", "acdeghijklmopqrstuvwxyz"),
  ("bq", "abcdfgijklmopqrstuvwxz"), ("br", "abcdefghijklmnopqrstuvwxyz"),
  ("bs", "abcefhijklmnopqrstuvwxy"), ("bt", "abcdefghijkmnopqrstuvwxyz"),
  ("bu", "abcdefghijklmnopqrstuvwxyz"), ("bv", "abcdefghijkmnoqrtuvwxyz"),
  ("bw", "abcdefghijklmopqrstuwxyz"), ("bx", "abcfghijklmnopqrsuvwz"),
  ("by", "abcdefhijklmnprsvwxz"), ("bz", "abcdefhijklmnopqrtuvwxyz"),
  ("ca", "abcdefghijklmnopqrstuvwxyz"), ("cb", "abcdgijklnoqrstuvwy"), ("cc", "cdeghjlmnopqrs"),
  ("cd", "cdefhijmnorz"), ("ce", "abgklnsty"), ("cf", "adgm"), ("cg", "acgk"),
  ("ch", "abdefghijklmnopqrtuvwxyz"), ("ci", "abcehmnprwy"), ("cj", "aehikmnoprsvy"),
  ("ck", "ablmnoqrstuvxyz"), ("cl", "acdehijklmostuwy"), ("cm", "acegiklnorst"),
  ("cn", "abcghiklpqrstwx"), ("co", "abcdefghjklmopqrstuxyz"), ("cp", "abcefginopsuxy"),
  ("cq", "du"), ("cr", "abcdefghijklmnopqrstvwxyz"), ("cs", "abhjkmopstuvwyz"),
  ("ct", "acdeghlmnopstuyz"), ("cu", "abchijklopstuvxy"), ("cv", "gn"), ("cw", "abdegt"),
  ("cx", "h"), ("cy", "abmo"), ("cz", "ehknt"), ("da", "acdefghijklmnopqrsuvwxyz"),
  ("db", "abdefgijlmnopqtuvwy"), ("dc", "cr"), ("dd", "adegijnorsw"), ("de", "cdefghiklmnqrsuvz"),
  ("dg", "abcdeghiklnorstwxz"), ("dh", "dgilmnorsuvwx"), ("di", "abcdfghijklnopqrstuvwxyz"),
  ("dj", "abcdefijklmnoruw"), ("dk", "agklrsx"), ("dl", "gmn"), ("dm", "abcdefgklmnorsuvwxy"),
  ("dn", "adegijknortuvwy"), ("do", "abcefhiklnoprstvwxy"), ("dp", "p"), ("dr", "aceghilnoqrstuwy"),
  ("ds", "bhiknoq"), ("dt", "abdhikmoprstuy"), ("du", "abcdefghijklmnopqrstuvwxyz"), ("dv", "a"),
  ("dw", "aklrsuwyz"), ("dy", "abdgimnoruy"), ("dz", "adeglno"), ("ea", "a"), ("eb", "cgkoru"),
  ("ec", "ry"), ("ef", "aei"), ("eg", "almoxy"), ("eh", "u"), ("ei", "ptv"), ("ej", "a"),
  ("ek", "aegiklmopry"), ("el", "eklmopux"), ("em", "abegikmnpsuwxz"), ("en", "abcdfghlmnoqrvwx"),
  ("eo", "t"), ("ep", "io"), ("er", "aghikrstw"), ("es", "eghikmstuxy"), ("et", "bnorstuxz"),
  ("eu", "dqs"), ("ev", "ehn"), ("ew", "eo"), ("ex", "t"), ("ey", "ao"), ("ez", "ae"),
  ("fa", "abdfghijklmnoprstuxyz"), ("fb", "l"), ("fe", "r"), ("ff", "im"), ("fg", "r"),
  ("fi", "aefjlnprtuw"), ("fk", "kv"), ("fl", "ahilnry"), ("fm", "pu"), ("fn", "bgi"),
  ("fo", "dimnrsx"), ("fp", "e"), ("fq", "s"), ("fr", "acdekmopqrsty"), ("fu", "bcdefhilmnqrtuvy"),
  ("fv", "r"), ("fw", "ae"), ("ga", "abcdefghijklmnopqrstuvwxyz"),
  ("gb", "abcdefghijklmnopqrsuvwxyz"), ("gc", "cdflnrt"), ("gd", "bcdefghijklmnoqrtux"),
  ("ge", "abcdfghijklmoqrsvwxyz"), ("gf", "kx"), ("gg", "abdegklnortuw"), ("gh", "aceknorst"),
  ("gi", "abcdeghlmnopqrstxyz"), ("gj", "kmnru"), ("gk", "adenopu"), ("gl", "abcdeghijkloruvw"),
  ("gm", "abdeghlmnqruvwxyz"), ("gn", "abcdeghijklmnoqrtuwz"), ("go", "abcdefghijklmnopqrstuvwxy"),
  ("gp", "aen"), ("gq", "anr"), ("gr", "abcdeghijkmnqrstuvwxyz"), ("gs", "lnopw"), ("gt", "aiu"),
  ("gu", "abcdefghijklmnopqrtuvwxz"), ("gv", "acefjlmnoprsy"), ("gw", "abcdefgijmnrtuwx"),
  ("gx", "x"), ("gy", "abdefgilmnoryz"), ("gz", "ain"), ("ha", "acdeghijklmnopqrstuvwxyz"),
  ("hb", "abnosu"), ("hc", "h"), ("hd", "ny"), ("he", "abdghimr"), ("hg", "mw"), ("hh", "iry"),
  ("hi", "abdfghijklmnortwx"), ("hj", "i"), ("hk", "aehk"), ("hl", "abdtu"),
  ("hm", "abdfjmnopqrstuvwxyz"), ("hn", "adeghijmnos"), ("ho", "abcdehijklmoprtvwy"), ("hp", "o"),
  ("hr", "acekmoprtuvwxz"), ("hs", "bns"), ("ht", "iosux"), ("hu", "bcdefghiklmnprstuvwxyz"),
  ("hv", "ceknv"), ("hw", "aco"), ("hy", "aewx"), ("ia", "inr"), ("ib", "abdeghilmnoruy"),
  ("ic", "aehr"), ("id", "abcdeiorstu"), ("if", "abefkmuy"), ("ig", "beglmnosw"), ("ih", "bipw"),
  ("ii", "inr"), ("ij", "cejnos"), ("ik", "ehikloprtuvwxz"), ("il", "abegiklmopuvw"),
  ("im", "ilnorsty"), ("in", "abcdeghjnopt"), ("io", "ruw"), ("ip", "iko"), ("iq", "uw"),
  ("ir", "aehiknouxy"), ("is", "acdhiklmnotu"), ("it", "abcdeiklmorstvwxyz"), ("iu", "m"),
  ("iv", "bv"), ("iw", "kmos"), ("ix", "cl"), ("iy", "aox"), ("iz", "himrz"),
  ("ja", "abcdefhjklmnoqrstuvwxyz"), ("jb", "eijkmnortuw"), ("jc", "t"), ("jd", "agt"),
  ("je", "beghiklnrtu"), ("jg", "beko"), ("jh", "i"), ("ji", "abcdeglmtuvy"), ("jj", "er"),
  ("jk", "amou"), ("jl", "e"), ("jm", "abcdilnrswx"), ("jn", "adgijls"), ("jo", "bdgrw"),
  ("jp", "anrx"), ("jq", "r"), ("jr", "abrtu"), ("ju", "abdhiklmnoprtuwy"), ("jv", "dn"),
  ("jw", "i"), ("jy", "aey"), ("ka", "abcdghijklmnopqrstuvwxyz"),
  ("kb", "abcdeghijklmnopqrstuvwxyz"), ("kc", "abcdefghijklmnopqstuvwyz"),
  ("kd", "acdefghijklmnopqrtvwxyz"), ("ke", "abcdefghiklmnorstuvwxyz"),
  ("kf", "abcdefghiklmnopqrsuvwxyz"), ("kg", "abcdefhjklmopqrstuvwxy"),
  ("kh", "abcdefghijklmnopqrstuvwxyz"), ("ki", "abcdefghjklmnopqrstuvwxyz"),
  ("kj", "abcdeghijklmnopqrstuxyz"), ("kk", "abcdefghijklmopqrstuvwxyz"),
  ("kl", "abcdefghijklmnopqrstuvwxyz"), ("km", "abcdefghijklmnopqrstuvwxyz"),
  ("kn", "abcdefgijklmnopqrstuvwxyz"), ("ko", "acdefghijklmnopqrstuvwyz"),
  ("kp", "acdefghijklmnopqrstuvwxyz"), ("kq", "abcdefghijklmnopqrstuvwxyz"),
  ("kr", "abcdefhijklmnoprstuvwxyz"), ("ks", "bcdefghijklmnopqrstuvwxz"),
  ("kt", "abcdefghijklmnopqrstuvwxyz"), ("ku", "abcdefghijklmnopqrstuvwxyz"),
  ("kv", "abcdefghijlmnopqrstvwxyz"), ("kw", "abcdefghijklmnopqrstuvwxyz"),
  ("kx", "abcdefijklmnopqrtvwxyz"), ("ky", "abcdefghijklmnoqrstuvwxyz"),
  ("kz", "abcdefhijklmnoprstuvwxyz"), ("la", "abcdeghijklmnopqrstuvwxz"),
  ("lb", "befijklmnoqrtuvwxyz"), ("lc", "cdefhlmpqs"), ("ld", "abdghijklmnopq"),
  ("le", "abcdefghijklmnopqrstuvwxyz"), ("lf", "an"), ("lg", "abghiklmnoqrtuz"), ("lh", "ahimnstu"),
  ("li", "abcdefghijklmnopqrstuvwxyz"), ("lj", "aeilpwx"), ("lk", "abcdehijlmnorstuy"),
  ("ll", "abcdefgijklmnopqux"), ("lm", "abcdefghijklmnopqruvwxy"), ("ln", "abdghijlmnsuwz"),
  ("lo", "abceghijklmnopqrstuwxyz"), ("lp", "aenox"), ("lq", "r"), ("lr", "acgiklmnotvz"),
  ("ls", "adeimrs"), ("lt", "cghinosuz"), ("lu", "abcdefghijklmnopqrstuvwyz"), ("lv", "aiklsu"),
  ("lw", "aeghlmotw"), ("lx", "m"), ("ly", "an"), ("lz", "hlnz"),
  ("ma", "abcdefghijklmnopqrstuvwxyz"), ("mb", "abcdfhijklmnopqrstuvwxyz"),
  ("mc", "abcdefghijklmnopqrstuvwxyz"), ("md", "abcdefghijkmnpqrstuvwxyz"),
  ("me", "abcdeghjklmnopqrstuvwyz"), ("mf", "abcdefghijklmnopqrtuvwxyz"),
  ("mg", "abcdefghijklmnopqrstuvwxyz"), ("mh", "bcdefgijklmnopqrstuwxyz"),
  ("mi", "abcdefghijklmnopqrstuwxyz"), ("mj", "bcdeghijklmnqrstuvwxyz"),
  ("mk", "abcdefhijklmnoprstvwxyz"), ("ml", "abcefghijklnoprstuvwxz"),
  ("mm", "abcdefghimnopqrtuvwxyz"), ("mn", "abcdefghijklmnopqrstuvwxyz"),
  ("mo", "acdefghijklmnopqrstuvwxyz"), ("mp", "abcdeghijklmnopqrstuvwxyz"),
  ("mq", "abcefghijklmnopqrstuvwxyz"), ("mr", "abcdfghijklmnopqrstuvwxyz"),
  ("ms", "abefghijklmnopqstuvwxyz"), ("mt", "abcdefghijklmnopqrstuvwxy"),
  ("mu", "abcdeghijklmnopqrstuvxyz"), ("mv", "adefghklnopqrstuvwxyz"),
  ("mw", "abcdefghijklmnopqrstuvwz"), ("mx", "abcdefghijklmnopqrstuvwxyz"),
  ("my", "abcdefghjklmnprtuvwxyz"), ("mz", "abdehijklmnopqrtuvwxz"),
  ("na", "abcdefghijklmnopqrstuvwxyz"), ("nb", "abcdefhijklmnopqrtuvwxy"),
  ("nc", "abcdefghijklmnopqrtuxz"), ("nd", "abcdefghijklmnopqrstuvwxyz"),
  ("ne", "abcdeghijkmnopqrtuwxyz"), ("nf", "adlru"), ("ng", "abcdeghijklmnpqrstuvwxyz"),
  ("nh", "abcdefgikmnopqrtuvwxyz"), ("ni", "abcdefghijlmnoqrstuvwxyz"), ("nj", "abdhijlmnorstuxyz"),
  ("nk", "abcdefghijkmnoqrstuvwxz"), ("nl", "acdegijkmnoqruvwxyz"),
  ("nm", "abcdefghijklmnopqrstuvwxz"), ("nn", "abcdefghijklmnopqrstuvwxyz"),
  ("no", "abcdefghijkmnopqrstuvwy"), ("np", "bghilnosuxy"), ("nq", "gklmnoqty"),
  ("nr", "abefgiklmnpuxz"), ("ns", "abcdefghkmnoqstuvwxyz"), ("nt", "degijkmoprsuxyz"),
  ("nu", "abcdefghijkmnopqrstuvwxyz"), ("nv", "hmo"), ("nw", "bcegimorwx"), ("nx", "adegiklnoqrux"),
  ("ny", "abcdefghijklmnopqrstuvwxy"), ("nz", "abdikmruyz"), ("oa", "acrv"), ("ob", "iklmortu"),
  ("oc", "aiou"), ("od", "aktu"), ("of", "su"), ("og", "bcgou"), ("oh", "tu"), ("oi", "aen"),
  ("oj", "bcgisvw"), ("ok", "abcdegikmorsuvxz"), ("ol", "adekmortu"), ("om", "abcgiklopqrtuvwx"),
  ("on", "aegijknoprstux"), ("oo", "dnr"), ("op", "akmoty"), ("or", "acegimnorstuvwxyz"),
  ("os", "aciopstux"), ("ot", "abdeiklmnoqrstuwxyz"), ("ou", "beimn"), ("ov", "d"), ("ow", "il"),
  ("oy", "bdmy"), ("oz", "m"), ("pa", "abcdefghiklmnopqrstuvwxyz"), ("pb", "bcefghilmnoprstuvy"),
  ("pc", "abcdefghijkmnprw"), ("pd", "acnotu"), ("pe", "abdegiklmopqrsvxyz"), ("pf", "ael"),
  ("pg", "adgiklnsu"), ("ph", "dghiklmnortuvw"), ("pi", "abcdfghjlmnoprstuvwxyz"), ("pj", "t"),
  ("pk", "abghnopru"), ("pl", "abcdefghiklnorstuvwz"), ("pm", "abcdefhijklmnoqrstuwxyz"),
  ("pn", "abcdeghijklmnopqrstvwyz"), ("po", "cefghiklmnopqrstvwyz"), ("pp", "aeiklmnopqrst"),
  ("pq", "aemw"), ("pr", "acdefghikmopqrstuwxy"), ("ps", "aehimnqstuw"), ("pt", "ahinoprtuv"),
  ("pu", "abcdefgijmopqrstuwxyz"), ("pw", "abgmnorw"), ("px", "m"), ("py", "emnuxy"), ("pz", "ehn"),
  ("qa", "abcdefghijklmnopqrstuvwxyz"), ("qb", "abcdefghijklmnopqrstuvwxyz"),
  ("qc", "abcdefghijklmnopqrstuvwxyz"), ("qd", "abcdefghijklmnopqrstuvwxyz"),
  ("qe", "abcdefghijklmnopqrstuvwxyz"), ("qf", "abcdefghijklmnopqrstuvwxyz"),
  ("qg", "abcdefghijklmnopqrstuvwxyz"), ("qh", "abcdefghijklmnopqrstuvwxyz"),
  ("qi", "abcdefghijklmnopqrstuvwxyz"), ("qj", "abcdefghijklmnopqrstuvwxyz"),
  ("qk", "abcdefghijklmnopqrstuvwxyz"), ("ql", "abcdefghijklmnopqrstuvwxyz"),
  ("qm", "abcdefghijklmnopqrstuvwxyz"), ("qn", "abcdefghijklmnopqrstuvwxyz"),
  ("qo", "abcdefghijklmnopqrstuvwxyz"), ("qp", "abcdefghijklmnopqrstuvwxyz"),
  ("qq", "abcdefghijklmnopqrstuvwxyz"), ("qr", "abcdefghijklmnopqrstuvwxyz"),
  ("qs", "abcdefghijklmnopqrstuvwxyz"), ("qt", "abcdefghijklmnopqrstuvwxyz"),
  ("qu", "abcdefgiklmnpqrsvwxyz"), ("qv", "acehijlmnopswz"), ("qw", "acehmst"),
  ("qx", "achlnopqrtuw"), ("qy", "ap"), ("ra", "abcdfghijkmnoprvwxyz"), ("rb", "bklp"), ("rc", "f"),
  ("rd", "b"), ("re", "abegijlmnsty"), ("rg", "anrsu"), ("rh", "gp"), ("ri", "aflmnrtu"),
  ("rj", "gis"), ("rk", "abhimtw"), ("rm", "abcdefghiklmnopqrtuwxyz"), ("rn", "dglnrw"),
  ("ro", "abcdefghlmnopruw"), ("rp", "nt"), ("rr", "imot"), ("rs", "kw"), ("rt", "chmw"),
  ("ru", "bcefgikmnopqstuyz"), ("rw", "aklmor"), ("rx", "dw"), ("ry", "u"),
  ("sa", "abcdefghijklmnopqrstuvwxyz"), ("sb", "abcdeghijklmnopqrstuvwxyz"),
  ("sc", "abcefghiklnoprstuvwx"), ("sd", "abcefghjknoqrsuvx"), ("se", "abcdefghijklmnopqrstuvwyz"),
  ("sf", "emw"), ("sg", "abcdehijlmnprstuwyz"), ("sh", "abcdeghijkmnopqrstuvwyz"),
  ("si", "abdefghijklmnopqrstuvwxyz"), ("sj", "abcdeglmprtuw"), ("sk", "abcdefghijkmnopqrstuvwxyz"),
  ("sl", "acdghijklmnopruvwxyz"), ("sm", "abcdefghijklnopqrstuwxyz"),
  ("sn", "abcdefgijklmnopqrsuvwxyz"), ("so", "abcdegiklmnopqrstuvwxyz"),
  ("sp", "abcdegiklmnopqrstvy"), ("sq", "ahimoqtu"), ("sr", "abcdefghiklmnopqrstuvwxyz"),
  ("ss", "abcdefghjlmnoqstuvwxyz"), ("st", "abefghijklmnopqrstuvwy"),
  ("su", "abcegijklmnoqrstvwxyz"), ("sv", "abcems"), ("sw", "abcefghijkmopqrstuvwxy"),
  ("sx", "benrsuw"), ("sy", "abcdiklmnorswx"), ("sz", "abcdglnpvwy"),
  ("ta", "abcdefghijklmnopqrstuvwxyz"), ("tb", "acdefghijklmnopqstuvwxyz"),
  ("tc", "abcdefghikmnopqsuwxyz"), ("td", "abcdeghijklmnoqrstuvxy"),
  ("te", "abcdeghiklmnopqrstuvwxyz"), ("tf", "inort"), ("tg", "abcdefghijklnopqstuvwxyz"),
  ("th", "acdefhiklmpqrstuvwxyz"), ("ti", "bcdefghijklmnopqrstuvwxy"), ("tj", "agijlnopsuw"),
  ("tk", "abdefgklpqrstuvwxz"), ("tl", "abcdfghijklmnpqrstuvwxy"),
  ("tm", "abcdefghijklmnopqrtuvwyz"), ("tn", "abcdefghiklmnopqrstvwxy"),
  ("to", "bcdfghijklmnopqrsuvwxyz"), ("tp", "acefgijklmnprtuvwxyz"), ("tq", "blmnoptuw"),
  ("tr", "abcefghijklmnopqrstuvwxyz"), ("ts", "abcdfghijlnoprtuvwxz"),
  ("tt", "bcdefhijklmnopqrstuvwyz"), ("tu", "abcdefghijklmnopqrstuvwxyz"), ("tv", "adeiklmnostuwx"),
  ("tw", "abdefghilmnopqrtuwxy"), ("tx", "aegijmnoqstuxy"), ("ty", "aehijlnprstuvxyz"),
  ("tz", "hjlmnox"), ("ua", "mr"), ("ub", "ailruy"), ("ud", "aegijlmu"), ("ue", "s"), ("uf", "i"),
  ("ug", "abeho"), ("uh", "an"), ("ui", "gsv"), ("uj", "i"), ("uk", "aghikpqruvwy"),
  ("ul", "abcefikmnuwy"), ("um", "abdgimnoprsu"), ("un", "adegikmnpruxz"), ("uo", "kn"),
  ("up", "iv"), ("ur", "abcdefghijkmnoprtuvwxyz"), ("us", "ahikpsu"), ("ut", "aehpru"),
  ("uu", "mr"), ("uv", "ehl"), ("uw", "a"), ("uy", "a"), ("uz", "bns"), ("va", "aefghijlmnoprsuvy"),
  ("vb", "bk"), ("ve", "cmnopr"), ("vg", "r"), ("vi", "cdefglntv"), ("vj", "k"),
  ("vk", "ajklmnoptuz"), ("vl", "ps"), ("vm", "abcdefghijklmpqrsuwxyz"), ("vn", "kmp"),
  ("vo", "lrt"), ("vr", "aost"), ("vt", "o"), ("vu", "mnt"), ("vw", "a"),
  ("wa", "abcdefghijklmnpqrstuvwxyz"), ("wb", "abefhijklmpqrtvw"), ("wc", "ai"), ("wd", "dgjktuy"),
  ("we", "cdghilmnoprstuw"), ("wf", "g"), ("wg", "abgiouwy"), ("wh", "agku"),
  ("wi", "bcefghijklmnrtuvwy"), ("wj", "ai"), ("wk", "adrwy"), ("wl", "aeghimnorsuvwx"),
  ("wm", "abcdehimnostwx"), ("wn", "bcdegikmnopuwy"), ("wo", "abcdefgiklmnorsw"), ("wp", "c"),
  ("wr", "bghiklmoprsuvwxz"), ("ws", "agikrsuv"), ("wt", "bfhikmw"), ("wu", "abdlmnrtuvxy"),
  ("ww", "aborw"), ("wx", "w"), ("wy", "bimnry"), ("xa", "abgijklmnorstuvwy"),
  ("xb", "abdegijmnprwy"), ("xc", "hor"), ("xd", "akoqy"), ("xe", "dgmrstu"), ("xg", "bdgimnuw"),
  ("xh", "emov"), ("xi", "ainrsy"), ("xj", "bt"), ("xk", "abcdefghjlnpqrstuvwxyz"), ("xl", "acdy"),
  ("xm", "abcdfghjmnopqrtuvwxyz"), ("xn", "abdijkmnqrtuyz"), ("xo", "cdgikmnoprw"),
  ("xp", "abdefghijklmnoqrtvwxz"), ("xr", "abdegimnqruw"), ("xs", "abdehijlmnpqrsuy"),
  ("xt", "abcdehijlmnpqstuvwy"), ("xu", "bdjlmnotu"), ("xv", "einos"), ("xw", "adejklortw"),
  ("xx", "bkmrt"), ("xy", "abjklty"), ("xz", "hp"), ("ya", "abcdefghijklmnopqrstuvwxyz"),
  ("yb", "abdehijlmnoxy"), ("yc", "lnr"), ("yd", "adegk"), ("ye", "aceijlnrstuvy"),
  ("yg", "ailmpruw"), ("yh", "d"), ("yi", "adghijlmrsvy"), ("yk", "aghikmory"), ("yl", "abegilruy"),
  ("ym", "abegklmnopt"), ("yn", "abdgklqsu"), ("yo", "bgiklmnrsty"), ("yp", "k"),
  ("yr", "abeklmoswy"), ("ys", "dnprsy"), ("yt", "wy"), ("yu", "abcdefgijlmnpqrtuwxz"),
  ("yv", "at"), ("yw", "agnqruw"), ("yx", "aglmuy"), ("yy", "ru"),
  ("za", "abcdefghijkmopqrstuvwxyz"), ("zb", "aceltuw"), ("zc", "ah"), ("zd", "j"), ("ze", "aghmn"),
  ("zg", "abhmnr"), ("zh", "adinowx"), ("zi", "aklmnrwz"), ("zk", "abdoptuz"), ("zl", "aejmnqsuw"),
  ("zm", "abcdefghijklmnopqrstuvwxyz"), ("zn", "adegks"), ("zo", "chmoqrs"),
  ("zp", "abcdefghijklmnopqrstuvwxyz"), ("zq", "e"), ("zr", "gnops"), ("zs", "amru"),
  ("zt", "eglmnpqstuxy"), ("zu", "hlmny"), ("zw", "a"), ("zx", "x"), ("zy", "bgjnp"), ("zz", "aj")]

/-- Codes that stand for another one. -/
def codeAliases : List (String × String) := [
  ("aar", "aa"), ("abk", "ab"), ("afr", "af"), ("aka", "ak"), ("alb", "sq"), ("amh", "am"),
  ("ara", "ar"), ("arg", "an"), ("arm", "hy"), ("asm", "as"), ("ava", "av"), ("ave", "ae"),
  ("aym", "ay"), ("aze", "az"), ("bak", "ba"), ("bam", "bm"), ("baq", "eu"), ("bel", "be"),
  ("ben", "bn"), ("bis", "bi"), ("bod", "bo"), ("bos", "bs"), ("bre", "br"), ("bul", "bg"),
  ("bur", "my"), ("cat", "ca"), ("ces", "cs"), ("cha", "ch"), ("che", "ce"), ("chi", "zh"),
  ("chu", "cu"), ("chv", "cv"), ("cor", "kw"), ("cos", "co"), ("cre", "cr"), ("cym", "cy"),
  ("cze", "cs"), ("dan", "da"), ("deu", "de"), ("div", "dv"), ("dut", "nl"), ("dzo", "dz"),
  ("ell", "el"), ("eng", "en"), ("epo", "eo"), ("est", "et"), ("eus", "eu"), ("ewe", "ee"),
  ("fao", "fo"), ("fas", "fa"), ("fij", "fj"), ("fin", "fi"), ("fra", "fr"), ("fre", "fr"),
  ("fry", "fy"), ("ful", "ff"), ("geo", "ka"), ("ger", "de"), ("gla", "gd"), ("gle", "ga"),
  ("glg", "gl"), ("glv", "gv"), ("gre", "el"), ("grn", "gn"), ("guj", "gu"), ("hat", "ht"),
  ("hau", "ha"), ("heb", "he"), ("her", "hz"), ("hin", "hi"), ("hmo", "ho"), ("hrv", "hr"),
  ("hun", "hu"), ("hye", "hy"), ("ibo", "ig"), ("ice", "is"), ("ido", "io"), ("iii", "ii"),
  ("iku", "iu"), ("ile", "ie"), ("in", "id"), ("ina", "ia"), ("ind", "id"), ("ipk", "ik"),
  ("isl", "is"), ("ita", "it"), ("iw", "he"), ("jav", "jv"), ("ji", "yi"), ("jpn", "ja"),
  ("jw", "jv"), ("kal", "kl"), ("kan", "kn"), ("kas", "ks"), ("kat", "ka"), ("kau", "kr"),
  ("kaz", "kk"), ("khm", "km"), ("kik", "ki"), ("kin", "rw"), ("kir", "ky"), ("kom", "kv"),
  ("kon", "kg"), ("kor", "ko"), ("kua", "kj"), ("kur", "ku"), ("lao", "lo"), ("lat", "la"),
  ("lav", "lv"), ("lim", "li"), ("lin", "ln"), ("lit", "lt"), ("ltz", "lb"), ("lub", "lu"),
  ("lug", "lg"), ("mac", "mk"), ("mah", "mh"), ("mal", "ml"), ("mao", "mi"), ("mar", "mr"),
  ("may", "ms"), ("mkd", "mk"), ("mlg", "mg"), ("mlt", "mt"), ("mo", "ro"), ("mol", "ro"),
  ("mon", "mn"), ("mri", "mi"), ("msa", "ms"), ("mya", "my"), ("nau", "na"), ("nav", "nv"),
  ("nbl", "nr"), ("nde", "nd"), ("ndo", "ng"), ("nep", "ne"), ("nld", "nl"), ("nno", "nn"),
  ("nob", "nb"), ("nor", "no"), ("nya", "ny"), ("oci", "oc"), ("oji", "oj"), ("ori", "or"),
  ("orm", "om"), ("oss", "os"), ("pan", "pa"), ("per", "fa"), ("pli", "pi"), ("pol", "pl"),
  ("por", "pt"), ("pus", "ps"), ("que", "qu"), ("roh", "rm"), ("ron", "ro"), ("rum", "ro"),
  ("run", "rn"), ("rus", "ru"), ("sag", "sg"), ("san", "sa"), ("scc", "sr"), ("scr", "hr"),
  ("sin", "si"), ("slk", "sk"), ("slo", "sk"), ("slv", "sl"), ("sme", "se"), ("smo", "sm"),
  ("sna", "sn"), ("snd", "sd"), ("som", "so"), ("sot", "st"), ("spa", "es"), ("sqi", "sq"),
  ("srd", "sc"), ("srp", "sr"), ("ssw", "ss"), ("sun", "su"), ("swa", "sw"), ("swe", "sv"),
  ("tah", "ty"), ("tam", "ta"), ("tat", "tt"), ("tel", "te"), ("tgk", "tg"), ("tgl", "fil"),
  ("tha", "th"), ("tib", "bo"), ("tir", "ti"), ("tl", "fil"), ("ton", "to"), ("tsn", "tn"),
  ("tso", "ts"), ("tuk", "tk"), ("tur", "tr"), ("twi", "tw"), ("uig", "ug"), ("ukr", "uk"),
  ("urd", "ur"), ("uzb", "uz"), ("ven", "ve"), ("vie", "vi"), ("vol", "vo"), ("wel", "cy"),
  ("wln", "wa"), ("wol", "wo"), ("xho", "xh"), ("yid", "yi"), ("yor", "yo"), ("zha", "za"),
  ("zho", "zh"), ("zul", "zu")]

def scriptCodes : List String :=
  ("Adlm Afak Aghb Ahom Arab Aran Armi Armn Avst Bali Bamu Bass Batk Beng Bhks Blis Bopo Brah " ++
    "Brai Bugi Buhd Cakm Cans Cari Cham Cher Chrs Cirt Copt Cpmn Cprt Cyrl Cyrs Deva Diak Dogr " ++
    "Dsrt Dupl Egyd Egyh Egyp Elba Elym Ethi Geok Geor Glag Gong Gonm Goth Gran Grek Gujr Guru " ++
    "Hanb Hang Hani Hano Hans Hant Hatr Hebr Hira Hluw Hmng Hmnp Hrkt Hung Inds Ital Jamo Java " ++
    "Jpan Jurc Kali Kana Khar Khmr Khoj Kitl Kits Knda Kore Kpel Kthi Lana Laoo Latf Latg Latn " ++
    "Leke Lepc Limb Lina Linb Lisu Loma Lyci Lydi Mahj Maka Mand Mani Marc Maya Medf Mend Merc " ++
    "Mero Mlym Modi Mong Moon Mroo Mtei Mult Mymr Nand Narb Nbat Newa Nkdb Nkgb Nkoo Nshu Ogam " ++
    "Olck Orkh Orya Osge Osma Ougr Palm Pauc Pcun Pelm Perm Phag Phli Phlp Phlv Phnx Piqd Plrd " ++
    "Prti Psin Qaaa Qaab Qaac Qaad Qaae Qaaf Qaag Qaah Qaai Qaaj Qaak Qaal Qaam Qaan Qaao Qaap " ++
    "Qaaq Qaar Qaas Qaat Qaau Qaav Qaaw Qaax Qaay Qaaz Qaba Qabb Qabc Qabd Qabe Qabf Qabg Qabh " ++
    "Qabi Qabj Qabk Qabl Qabm Qabn Qabo Qabp Qabq Qabr Qabs Qabt Qabu Qabv Qabw Qabx Ranj Rjng " ++
    "Rohg Roro Runr Samr Sara Sarb Saur Sgnw Shaw Shrd Shui Sidd Sind Sinh Sogd Sogo Sora Soyo " ++
    "Sund Sunu Sylo Syrc Syre Syrj Syrn Tagb Takr Tale Talu Taml Tang Tavt Telu Teng Tfng Tglg " ++
    "Thaa Thai Tibt Tirh Tnsa Toto Ugar Vaii Visp Vith Wara Wcho Wole Xpeo Xsux Yezi Yiii Zanb " ++
    "Zinh Zmth Zsye Zsym Zxxx Zyyy Zzzz").splitOn " "

/-- Regions with a code of two letters. -/
def regionCodes : List String :=
  ("AA AC AD AE AF AG AI AL AM AN AO AQ AR AS AT AU AW AX AZ BA BB BD BE BF BG BH BI BJ BL BM " ++
    "BN BO BQ BR BS BT BU BV BW BY BZ CA CC CD CF CG CH CI CK CL CM CN CO CP CQ CR CS CT CU CV " ++
    "CW CX CY CZ DD DE DG DJ DK DM DO DY DZ EA EC EE EG EH ER ES ET EU EZ FI FJ FK FM FO FQ FR " ++
    "FX GA GB GD GE GF GG GH GI GL GM GN GP GQ GR GS GT GU GW GY HK HM HN HR HT HU HV IC ID IE " ++
    "IL IM IN IO IQ IR IS IT JE JM JO JP JT KE KG KH KI KM KN KP KR KW KY KZ LA LB LC LI LK LR " ++
    "LS LT LU LV LY MA MC MD ME MF MG MH MI MK ML MM MN MO MP MQ MR MS MT MU MV MW MX MY MZ NA " ++
    "NC NE NF NG NH NI NL NO NP NQ NR NU NZ OM PA PC PE PF PG PH PK PL PM PN PR PS PT PU PW PY " ++
    "PZ QA QM QN QO QP QQ QR QS QT QU QV QW QX QY QZ RE RH RO RS RU RW SA SB SC SD SE SG SH SI " ++
    "SJ SK SL SM SN SO SR SS ST SU SV SX SY SZ TA TC TD TF TG TH TJ TK TL TM TN TO TP TR TT TV " ++
    "TW TZ UA UG UK UM UN US UY UZ VA VC VD VE VG VI VN VU WF WK WS XA XB XC XD XE XF XG XH XI " ++
    "XJ XK XL XM XN XO XP XQ XR XS XT XU XV XW XX XY XZ YD YE YT YU ZA ZM ZR ZW ZZ").splitOn " "

/-- Regions that are larger than a country, by number. -/
def areaNumbers : List String :=
  ("001 002 003 005 009 011 013 014 015 017 018 019 021 029 030 034 035 039 053 054 057 061 062 " ++
    "142 143 145 150 151 154 155 172 202 419").splitOn " "

/-- Numbers that stand for a region with a code of letters. -/
def regionNumbers : List (String × String) := [
  ("004", "AF"), ("008", "AL"), ("010", "AQ"), ("012", "DZ"), ("016", "AS"), ("020", "AD"),
  ("024", "AO"), ("028", "AG"), ("031", "AZ"), ("032", "AR"), ("036", "AU"), ("040", "AT"),
  ("044", "BS"), ("048", "BH"), ("050", "BD"), ("051", "AM"), ("052", "BB"), ("056", "BE"),
  ("060", "BM"), ("064", "BT"), ("068", "BO"), ("070", "BA"), ("072", "BW"), ("074", "BV"),
  ("076", "BR"), ("084", "BZ"), ("086", "IO"), ("090", "SB"), ("092", "VG"), ("096", "BN"),
  ("100", "BG"), ("104", "MM"), ("108", "BI"), ("112", "BY"), ("116", "KH"), ("120", "CM"),
  ("124", "CA"), ("132", "CV"), ("136", "KY"), ("140", "CF"), ("144", "LK"), ("148", "TD"),
  ("152", "CL"), ("156", "CN"), ("158", "TW"), ("162", "CX"), ("166", "CC"), ("170", "CO"),
  ("174", "KM"), ("175", "YT"), ("178", "CG"), ("180", "CD"), ("184", "CK"), ("188", "CR"),
  ("191", "HR"), ("192", "CU"), ("196", "CY"), ("200", "CZ"), ("203", "CZ"), ("204", "BJ"),
  ("208", "DK"), ("212", "DM"), ("214", "DO"), ("218", "EC"), ("222", "SV"), ("226", "GQ"),
  ("230", "ET"), ("231", "ET"), ("232", "ER"), ("233", "EE"), ("234", "FO"), ("238", "FK"),
  ("239", "GS"), ("242", "FJ"), ("246", "FI"), ("248", "AX"), ("249", "FR"), ("250", "FR"),
  ("254", "GF"), ("258", "PF"), ("260", "TF"), ("262", "DJ"), ("266", "GA"), ("268", "GE"),
  ("270", "GM"), ("275", "PS"), ("276", "DE"), ("278", "DE"), ("280", "DE"), ("288", "GH"),
  ("292", "GI"), ("296", "KI"), ("300", "GR"), ("304", "GL"), ("308", "GD"), ("312", "GP"),
  ("316", "GU"), ("320", "GT"), ("324", "GN"), ("328", "GY"), ("332", "HT"), ("334", "HM"),
  ("336", "VA"), ("340", "HN"), ("344", "HK"), ("348", "HU"), ("352", "IS"), ("356", "IN"),
  ("360", "ID"), ("364", "IR"), ("368", "IQ"), ("372", "IE"), ("376", "IL"), ("380", "IT"),
  ("384", "CI"), ("388", "JM"), ("392", "JP"), ("398", "KZ"), ("400", "JO"), ("404", "KE"),
  ("408", "KP"), ("410", "KR"), ("414", "KW"), ("417", "KG"), ("418", "LA"), ("422", "LB"),
  ("426", "LS"), ("428", "LV"), ("430", "LR"), ("434", "LY"), ("438", "LI"), ("440", "LT"),
  ("442", "LU"), ("446", "MO"), ("450", "MG"), ("454", "MW"), ("458", "MY"), ("462", "MV"),
  ("466", "ML"), ("470", "MT"), ("474", "MQ"), ("478", "MR"), ("480", "MU"), ("484", "MX"),
  ("492", "MC"), ("496", "MN"), ("498", "MD"), ("499", "ME"), ("500", "MS"), ("504", "MA"),
  ("508", "MZ"), ("512", "OM"), ("516", "NA"), ("520", "NR"), ("524", "NP"), ("528", "NL"),
  ("530", "CW"), ("531", "CW"), ("532", "CW"), ("533", "AW"), ("534", "SX"), ("535", "BQ"),
  ("536", "SA"), ("540", "NC"), ("548", "VU"), ("554", "NZ"), ("558", "NI"), ("562", "NE"),
  ("566", "NG"), ("570", "NU"), ("574", "NF"), ("578", "NO"), ("580", "MP"), ("581", "UM"),
  ("582", "FM"), ("583", "FM"), ("584", "MH"), ("585", "PW"), ("586", "PK"), ("591", "PA"),
  ("598", "PG"), ("600", "PY"), ("604", "PE"), ("608", "PH"), ("612", "PN"), ("616", "PL"),
  ("620", "PT"), ("624", "GW"), ("626", "TL"), ("630", "PR"), ("634", "QA"), ("638", "RE"),
  ("642", "RO"), ("643", "RU"), ("646", "RW"), ("652", "BL"), ("654", "SH"), ("659", "KN"),
  ("660", "AI"), ("662", "LC"), ("663", "MF"), ("666", "PM"), ("670", "VC"), ("674", "SM"),
  ("678", "ST"), ("682", "SA"), ("686", "SN"), ("688", "RS"), ("690", "SC"), ("694", "SL"),
  ("702", "SG"), ("703", "SK"), ("704", "VN"), ("705", "SI"), ("706", "SO"), ("710", "ZA"),
  ("716", "ZW"), ("720", "YE"), ("724", "ES"), ("728", "SS"), ("729", "SD"), ("732", "EH"),
  ("736", "SD"), ("740", "SR"), ("744", "SJ"), ("748", "SZ"), ("752", "SE"), ("756", "CH"),
  ("760", "SY"), ("762", "TJ"), ("764", "TH"), ("768", "TG"), ("772", "TK"), ("776", "TO"),
  ("780", "TT"), ("784", "AE"), ("788", "TN"), ("792", "TR"), ("795", "TM"), ("796", "TC"),
  ("798", "TV"), ("800", "UG"), ("804", "UA"), ("807", "MK"), ("810", "RU"), ("818", "EG"),
  ("826", "GB"), ("830", "JE"), ("831", "GG"), ("832", "JE"), ("833", "IM"), ("834", "TZ"),
  ("840", "US"), ("850", "VI"), ("854", "BF"), ("858", "UY"), ("860", "UZ"), ("862", "VE"),
  ("876", "WF"), ("882", "WS"), ("886", "YE"), ("887", "YE"), ("890", "RS"), ("891", "RS"),
  ("894", "ZM"), ("958", "AA"), ("959", "QM"), ("960", "QN"), ("962", "QP"), ("963", "QQ"),
  ("964", "QR"), ("965", "QS"), ("966", "QT"), ("967", "EU"), ("968", "QV"), ("969", "QW"),
  ("970", "QX"), ("971", "QY"), ("972", "QZ"), ("973", "XA"), ("974", "XB"), ("975", "XC"),
  ("976", "XD"), ("977", "XE"), ("978", "XF"), ("979", "XG"), ("980", "XH"), ("981", "XI"),
  ("982", "XJ"), ("983", "XK"), ("984", "XL"), ("985", "XM"), ("986", "XN"), ("987", "XO"),
  ("988", "XP"), ("989", "XQ"), ("990", "XR"), ("991", "XS"), ("992", "XT"), ("993", "XU"),
  ("994", "XV"), ("995", "XW"), ("996", "XX"), ("997", "XY"), ("998", "XZ"), ("999", "ZZ")]

/-- Regions that are called otherwise now. -/
def regionAliases : List (String × String) := [
  ("BU", "MM"), ("CT", "KI"), ("DD", "DE"), ("DY", "BJ"), ("FX", "FR"), ("HV", "BF"), ("JT", "UM"),
  ("MI", "UM"), ("NH", "VU"), ("PU", "UM"), ("PZ", "PA"), ("QU", "EU"), ("RH", "ZW"), ("TP", "TL"),
  ("UK", "GB"), ("VD", "VN"), ("WK", "UM"), ("YD", "YE"), ("YU", "RS"), ("ZR", "CD")]

def variantCodes : List String :=
  ("1606nict 1694acad 1901 1959acad 1994 1996 abl1943 akuapem alalc97 aluku ao1990 aranes " ++
    "arevela arevmda arkaika asante auvern baku1926 balanka barla basiceng bauddha biscayan " ++
    "biske bohoric boont bornholm cisaup colb1945 cornu creiss dajnko ekavsk emodeng fonipa " ++
    "fonkirsh fonnapa fonupa fonxsamp gascon grclass grital grmistr hepburn heploc hognorsk " ++
    "hsistemo ijekavsk itihasa ivanchov jauer jyutping kkcor kociewie kscor laukika lemosin " ++
    "lengadoc lipaw luna1918 metelko monoton ndyuka nedis newfound nicard njiva nulik osojs " ++
    "oxendict pahawh2 pahawh3 pahawh4 pamaka peano petr1708 pinyin polyton provenc puter rigik " ++
    "rozaj rumgr scotland scouse simple solba sotav spanglis surmiran sursilv sutsilv tarask " ++
    "tongyong tunumiir uccor ucrcor ulster unifon vaidika valencia vallader vecdruka vivaraup " ++
    "wadegile xsistemo").splitOn " "

def isLanguage (code : String) : Bool :=
  let cs := code.toList
  if cs.length == 2 then shortCodes.contains code
  else match longCodes.lookup (String.ofList (cs.take 2)) with
    | some thirds => cs.length == 3 && (cs.drop 2).all fun c => thirds.toList.contains c
    | none => false

end Mos6510.Language
